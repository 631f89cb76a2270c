import LeoEdk.Lib.Bytes

/-!
`_LogFmtVPrint` of the log: a format string with its arguments into a buffer of 16-bit characters.

Three counters go through the loop: the place of the next character in the buffer, the characters printed so far and
those that are left. To read the format behind its terminator is a stop here.
-/

namespace LeoEdk.Sbc.LogFormat

abbrev Wchar := { c : UInt16 // c ≠ 0 }

def L (c : Char) : UInt16 := .ofNat c.toNat

/-- The `k`-th argument is read as what the directive that reaches it says; a string may be null. -/
structure VaList where
  word : Nat → UInt64
  unicode : Nat → Option (List Wchar)
  ascii : Nat → Option Bytes

inductive Conversion where
  | string (s : List Wchar)
  | decimal (v : UInt64)
  | unsigned (v : UInt64)
  | hex (upper : Bool) (v : UInt64)
  | pointer (v : UInt64)
  deriving DecidableEq, Repr

structure LogEnv where
  va : VaList
  /-- `UnicodeSPrint` with room for the given number of characters: what it writes before its terminator. -/
  unicodeSPrint : Conversion → Nat → List UInt16
  unicodeSPrint_lt : ∀ conv room, 0 < room → (unicodeSPrint conv room).length < room
  /-- `PcdUefiLibMaxPrintBufferSize + 1`, and what `TempAsciiBuf` holds when nothing was copied into it. -/
  tempSize : Nat
  tempAsciiBuf : Nat → UInt8

structure Cursor where
  fmt : List Wchar
  arg : Nat

structure Directive where
  padWithZero : Bool
  leftJustify : Bool
  width : Nat
  precision : Nat
  long : Bool
  deriving DecidableEq, Repr

def maxUintn : Nat := 2 ^ 64 - 1

def parseFlags (padWithZero leftJustify : Bool) : List Wchar → Bool × Bool × List Wchar
  | [] => (padWithZero, leftJustify, [])
  | c :: cs =>
    if c.1 = L '-' then parseFlags padWithZero true cs
    else if c.1 = L '0' then parseFlags true leftJustify cs
    else (padWithZero, leftJustify, c :: cs)

def parseNumber (n : Nat) : List Wchar → Nat × List Wchar
  | [] => (n, [])
  | c :: cs =>
    if L '0' ≤ c.1 ∧ c.1 ≤ L '9' then parseNumber ((n * 10 + (c.1 - L '0').toNat) % 2 ^ 64) cs else (n, c :: cs)

def parseStar (va : VaList) (cur : Cursor) : Nat × Cursor :=
  match cur.fmt with
  | [] => (0, cur)
  | c :: cs =>
    if c.1 = L '*' then ((va.word cur.arg).toNat, ⟨cs, cur.arg + 1⟩)
    else
      let (n, rest) := parseNumber 0 (c :: cs)
      (n, ⟨rest, cur.arg⟩)

def parsePrecision (va : VaList) (cur : Cursor) : Nat × Cursor :=
  match cur.fmt with
  | [] => (maxUintn, cur)
  | c :: cs => if c.1 = L '.' then parseStar va ⟨cs, cur.arg⟩ else (maxUintn, cur)

def skipOne (c : UInt16) : List Wchar → List Wchar
  | [] => []
  | d :: ds => if d.1 = c then ds else d :: ds

def parseLength : List Wchar → Bool × List Wchar
  | [] => (false, [])
  | c :: cs =>
    if c.1 = L 'l' ∨ c.1 = L 'L' then (true, skipOne (L 'l') cs)
    else if c.1 = L 'h' then (false, skipOne (L 'h') cs)
    else (false, c :: cs)

def parseDirective (va : VaList) (cur : Cursor) : Directive × Cursor :=
  let (padWithZero, leftJustify, fmt) := parseFlags false false cur.fmt
  let (width, cur) := parseStar va ⟨fmt, cur.arg⟩
  let (precision, cur) := parsePrecision va cur
  let (long, fmt) := parseLength cur.fmt
  ({ padWithZero, leftJustify, width, precision, long }, ⟨fmt, cur.arg⟩)

inductive Item where
  | literal (c : Wchar)
  | conversion (conv : Conversion)
  | ascii (d : Directive) (s : Bytes)
  | char (c : UInt16)
  | percent
  /-- The default branch of the `switch`, on a character of the format or on its terminator. -/
  | unknown (c : Wchar)
  | incomplete

def nullStringUefi : List Wchar :=
  [⟨0x28, by decide⟩, ⟨0x6E, by decide⟩, ⟨0x75, by decide⟩, ⟨0x6C, by decide⟩, ⟨0x6C, by decide⟩, ⟨0x29, by decide⟩]

def nullStringAscii : Bytes := [0x28, 0x6E, 0x75, 0x6C, 0x6C, 0x29]

def specifier (va : VaList) (d : Directive) (arg : Nat) (c : Wchar) : Item × Bool :=
  if c.1 = L 's' then (.conversion (.string ((va.unicode arg).getD nullStringUefi)), true)
  else if c.1 = L 'a' then (.ascii d ((va.ascii arg).getD nullStringAscii), true)
  else if c.1 = L 'd' ∨ c.1 = L 'i' then (.conversion (.decimal (va.word arg)), true)
  else if c.1 = L 'u' then (.conversion (.unsigned (va.word arg)), true)
  else if c.1 = L 'x' then (.conversion (.hex false (va.word arg)), true)
  else if c.1 = L 'X' then (.conversion (.hex true (va.word arg)), true)
  else if c.1 = L 'p' then (.conversion (.pointer (va.word arg)), true)
  else if c.1 = L 'c' then (.char (va.word arg).toUInt16, true)
  else if c.1 = L '%' then (.percent, false)
  else (.unknown c, false)

def next (va : VaList) (cur : Cursor) : Option (Item × Cursor) :=
  match cur.fmt with
  | [] => none
  | c :: cs =>
    if c.1 ≠ L '%' then some (.literal c, ⟨cs, cur.arg⟩)
    else
      let (d, cur) := parseDirective va ⟨cs, cur.arg⟩
      match cur.fmt with
      | [] => some (.incomplete, cur)
      | c :: cs =>
        let (item, takes) := specifier va d cur.arg c
        some (item, ⟨cs, if takes then cur.arg + 1 else cur.arg⟩)

/-! ### The branch for ASCII strings -/

/-- The status of `AsciiStrCpyS`, which the code takes for the length of the string: 0, or `RETURN_BUFFER_TOO_SMALL`
    when the string does not fit the temporary buffer. -/
def LogEnv.asciiStrCpyS (e : LogEnv) (s : Bytes) : Nat := if s.length < e.tempSize then 0 else 2 ^ 63 + 5

/-- The length after the precision has been applied; `none` when the terminator is then put behind the temporary
    buffer. -/
def LogEnv.asciiLen (e : LogEnv) (d : Directive) (s : Bytes) : Option Nat :=
  let asciiLen := e.asciiStrCpyS s
  if d.precision ≠ maxUintn ∧ d.precision < asciiLen then
    if d.precision < e.tempSize then some d.precision else none
  else some asciiLen

/-- What `TempAsciiBuf` holds at `i`: the string and its terminator if it was copied, and the truncation. -/
def LogEnv.tempAt (e : LogEnv) (s : Bytes) (asciiLen i : Nat) : UInt8 :=
  if s.length < e.tempSize ∧ i ≤ s.length then s.getD i 0
  else if e.asciiStrCpyS s ≠ asciiLen ∧ i = asciiLen then 0
  else e.tempAsciiBuf i

/-- How often a loop `for (i = 0; i < n && RemainingBufChars > PrintedChars + Count + 1; i++)` runs, each time adding 1
    to `Count`. -/
def turns (n printed remaining count : Nat) : Nat := min n (remaining - (printed + count + 1))

def LogEnv.asciiText (e : LogEnv) (d : Directive) (s : Bytes) (asciiLen printed remaining : Nat) : List UInt16 :=
  let padChar := if d.padWithZero then L '0' else L ' '
  let before := if asciiLen < d.width ∧ !d.leftJustify then turns (d.width - asciiLen) printed remaining 0 else 0
  let chars := turns asciiLen printed remaining before
  let behind :=
    if asciiLen < d.width ∧ d.leftJustify then turns (d.width - asciiLen) printed remaining (before + chars) else 0
  List.replicate before padChar ++ (List.range chars).map (fun i => (e.tempAt s asciiLen i).toUInt16) ++
    List.replicate behind padChar

inductive Stop where
  | formatOverread
  | stackOverrun
  | turnsExceeded
  deriving DecidableEq, Repr

structure LogState where
  cur : Cursor
  /-- The characters from `LogBuf` up to `Dest`. -/
  out : List UInt16
  printedChars : Nat
  remainingBufChars : Nat
  /-- One more than the furthest place that has been written. -/
  extent : Nat

/-- The common update at the end of the `switch`; `UnicodeSPrint` has written a terminator behind its characters. -/
def LogState.put (s : LogState) (text : List UInt16) (terminated : Bool) : LogState where
  cur := s.cur
  out := s.out ++ text
  printedChars := s.printedChars + text.length
  remainingBufChars := s.remainingBufChars - text.length
  extent := max s.extent (s.out.length + text.length + if terminated then 1 else 0)

/-- One item. The unknown specifier and the terminator are stored with the `%` before them, two characters, and the
    format is then read from the next place on. -/
def perform (e : LogEnv) (s : LogState) : Item → Except Stop LogState
  | .literal c => .ok (s.put [c.1] false)
  | .conversion conv => .ok (s.put (e.unicodeSPrint conv s.remainingBufChars) true)
  | .ascii d str =>
    match e.asciiLen d str with
    | none => .error .stackOverrun
    | some asciiLen => .ok (s.put (e.asciiText d str asciiLen s.printedChars s.remainingBufChars) false)
  | .char c => .ok (s.put [c] false)
  | .percent => .ok (s.put [L '%'] false)
  | .unknown c => .ok (s.put [L '%', c.1] false)
  | .incomplete => .error .formatOverread

def loop (e : LogEnv) : Nat → LogState → Except Stop LogState
  | fuel, s =>
    match next e.va s.cur with
    | none => .ok s
    | some (item, cur) =>
      if s.remainingBufChars ≤ 1 then .ok s
      else match fuel with
        | 0 => .error .turnsExceeded
        | fuel + 1 => do
          let s ← perform e { s with cur } item
          loop e fuel s

/-- What a call leaves: the characters before the final terminator, the furthest place written and the count that is
    returned. -/
structure LogResult where
  out : List UInt16
  extent : Nat
  returned : Nat
  deriving DecidableEq, Repr

/-- Each turn reads at least one character of the format. -/
def logFmtVPrint (e : LogEnv) (format : List Wchar) (bufLenBytes : Nat) : Except Stop LogResult :=
  let remainingBufChars := bufLenBytes / 2
  if remainingBufChars = 0 then .ok ⟨[], 0, 0⟩
  else do
    let s ← loop e format.length ⟨⟨format, 0⟩, [], 0, remainingBufChars, 0⟩
    return ⟨s.out, max s.extent (s.out.length + 1), s.printedChars⟩

end LeoEdk.Sbc.LogFormat
