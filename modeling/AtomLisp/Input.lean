/-! # The input

  What a program can still read. Most of it is characters; but the bytes of a piece may be no text,
  or the host may fail to deliver them, and then nobody who comes to that piece gets a line. The
  input is a sequence of characters and of such faults.

  * `Input.ofText`: an input that can be read from its start to its end, and `Input.ofBytes`: one
    whose bytes need not be a text;
  * `Input.takeLine`: what reading a line comes to, and what can be read after it.
-/

namespace AtomLisp

/-- Why a piece of the input cannot be read. -/
inductive InputFault where
  /-- Its bytes are no UTF-8. -/
  | undecodable
  /-- The host does not deliver it. -/
  | undelivered
  deriving DecidableEq, Repr

/-- What is still to be read. -/
inductive Input where
  | ended
  | char (c : Char) (rest : Input)
  /-- A piece that cannot be read. Whoever comes to it loses it, and can go on behind it. -/
  | fault (f : InputFault) (rest : Input)
  /-- Nobody gets past this point: a character that is begun and never completed, say. -/
  | broken (f : InputFault)
  deriving DecidableEq, Repr

namespace Input

/-- Characters, and what comes behind them. -/
def ofChars (cs : List Char) (rest : Input) : Input := cs.foldr char rest

/-- A text, and nothing behind it. -/
def ofText (text : String) : Input := ofChars text.toList ended

/-- Do the bytes begin a character that takes more of them? -/
def isBegun (bytes : ByteArray) : Bool :=
  [1, 2, 3].any fun missing => [0x80, 0xBF].any fun byte : UInt8 =>
    (bytes ++ ⟨.replicate missing byte⟩).validateUTF8

/-- The text in front of a character that is begun at the end of the bytes and never completed. -/
def textBeforeBegun? (bytes : ByteArray) : Option String :=
  [1, 2, 3].findSome? fun n =>
    let size := bytes.size - n
    if isBegun (bytes.extract size bytes.size) then String.fromUTF8? (bytes.extract 0 size)
    else none

/-- An input whose bytes come in one piece. -/
def ofBytes (bytes : ByteArray) : Input :=
  match String.fromUTF8? bytes with
  | some text => ofText text
  | none =>
    match textBeforeBegun? bytes with
    -- The character stays begun, however often the input is read.
    | some text => ofChars text.toList (broken .undecodable)
    | none => fault .undecodable ended

/-- How many characters and faults it has. -/
def size : Input → Nat
  | ended => 0
  | char _ rest => rest.size + 1
  | fault _ rest => rest.size + 1
  | broken _ => 1

/-- The next line without its end, or `none` where the input has ended; and the input after it.
Where the line meets a fault, it is lost together with the piece. -/
def takeLine : Input → Except InputFault (Option (List Char)) × Input
  | ended => (.ok none, ended)
  | fault f rest => (.error f, rest)
  | broken f => (.error f, broken f)
  | char c rest =>
    if c = '\n' then (.ok (some []), rest)
    else
      let (line, rest) := rest.takeLine
      -- The last line need not end with a line feed.
      (line.map fun cs => some (c :: cs.getD []), rest)

end Input

end AtomLisp
