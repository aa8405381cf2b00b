/-! # The prelude

  Definitions that are written in the language itself. A session evaluates them before anything
  else, unless it is told otherwise: `not`, `load-file` and the macro `cond`.
-/

namespace AtomLisp.Prelude

/-- The name of the file that replaces the prelude, in the directory that the settings name. -/
def fileName : String := "core.mal"

/-- The text of the prelude. -/
def text : String := "
(def! not (fn* (a) (if a false true)))

(def! load-file
  (fn* (f) (eval (read-string (str \"(do \" (slurp f) \"\\nnil)\")))))

(defmacro! cond
  (fn* (& xs)
    (if (> (count xs) 0)
      (list 'if (first xs)
            (if (> (count xs) 1)
              (nth xs 1)
              (throw \"odd number of forms to cond\"))
            (cons 'cond (rest (rest xs)))))))
"

end AtomLisp.Prelude
