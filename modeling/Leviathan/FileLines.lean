import Leviathan.SizeClass

/-! Reading a file line by line: `CFileUtil::getNextLine(STLine *)` (comFileUtil.cpp) and the loop of
`CFileProc::FileProc` (LogAnalyzer).  The file is in memory, with a NUL behind its last character;
a position in it is what is left of the text from there on. -/
namespace Leviathan.FileLines

-- the literal '\r\n' that `g_rc` is set to keeps its low byte as a `char`
def g_rc : UInt8 := 10

/-- `ehstrstr` from inside a match of `k` characters, at position `p`. -/
def ehstrstrFrom (psubstr : List UInt8) : List UInt8 → ℕ → ℕ → Option ℕ
  | [], _, _ => none
  | c :: pPos, k, p =>
    if c = psubstr.getD k 0 then
      if psubstr.length ≤ k+1 then some p else ehstrstrFrom psubstr pPos (k+1) (p+1)
    -- a mismatch drops the characters matched so far
    else ehstrstrFrom psubstr pPos 0 (p+1)

/-- The position of the last character of the match. -/
def ehstrstr (pTarget psubstr : List UInt8) : Option ℕ := ehstrstrFrom psubstr pTarget 0 0

/-- The line buffer: NULL or a block of class `nIdx`, of which only the text up to the NUL counts. -/
structure LineBuf where
  pValue : Option (List UInt8)
  nIdx : ℕ

structure STLine where
  pSource : List UInt8
  m_szLineBuf : LineBuf
  pEnd : Option (List UInt8)
  nSkipLen : ℕ

-- `newBufByIndex`: the size `1 << 31` is negative as an `int` and too large for `calloc`
def newBufByIndex (nIdx : ℕ) : Option LineBuf := if nIdx < 31 then some ⟨some [], nIdx⟩ else none

/-- The two writes of a line of `nSize` characters into the buffer. -/
def copyLine (buf : LineBuf) (line : List UInt8) : Except Fault LineBuf :=
  match buf.pValue with
  | none => .error .nullWrite
  | some _ => if line.length+1 ≤ 2^buf.nIdx then .ok { buf with pValue := some line } else .error .outOfBounds

/-- The position of the end of the line, counted from `pSource`. -/
def findEnd (l : STLine) : Except Fault (Option ℕ) :=
  if l.nSkipLen ≤ l.pSource.length then
    let pNextLine := l.pSource.drop l.nSkipLen
    .ok ((match l.pEnd with
      | some key => ehstrstr pNextLine key
      | none => pNextLine.findIdx? (· == g_rc)).map (l.nSkipLen+·))
  else .error .outOfBounds

/-- A buffer for a line of class `nIdx`; `none` when the allocation fails. -/
def growLineBuf (buf : LineBuf) (nIdx : ℕ) : Option LineBuf :=
  if buf.nIdx < nIdx then newBufByIndex (nIdx+1) else some buf

/-- `getNextLine`: the line is left in the buffer; the result is its length, or 0 at the end. -/
def getNextLine (l : STLine) : Except Fault (STLine × ℕ) := do
  match ← findEnd l with
  | some nSize =>
    match growLineBuf l.m_szLineBuf (getIndex (nSize+1)) with
    -- the old buffer is released and `pValue` is NULL
    | none => return ({ l with m_szLineBuf := ⟨none, 0⟩ }, 0)
    | some buf =>
      let buf ← copyLine buf (l.pSource.take nSize)
      let pNextLine := l.pSource.drop (nSize+1)
      if pNextLine = [] then return ({ l with m_szLineBuf := buf }, 0)
      else return ({ l with m_szLineBuf := buf, pSource := pNextLine }, nSize)
  | none =>
    if l.pSource = [] then return (l, 0)
    else
      -- `nIdx` is still 0 here, so the buffer is never replaced
      let buf ← copyLine l.m_szLineBuf l.pSource
      return ({ l with m_szLineBuf := buf }, 0)

/-- The loop of `FileProc`, entered with a `getNextLine`: the texts given to `parsingLine`, which
always accepts. -/
def lineLoop : ℕ → STLine → Except Fault (List (List UInt8))
  | 0, _ => .error .diverges
  | fuel+1, l => do
    let (l', nLineSize) ← getNextLine l
    match l'.m_szLineBuf.pValue with
    | none => .error .nullRead
    | some pNextLine =>
      if nLineSize = 0 then return [pNextLine]
      else
        let more ← lineLoop fuel l'
        return pNextLine :: more

/-- `FileProc` on a file, without end key and skip length, with the line buffer of the file before. -/
def fileProc (buf : LineBuf) (content : CString) : Except Fault (List (List UInt8)) :=
  lineLoop (content.strlen+1) ⟨content.chars, buf, none, 0⟩

/-- The lines of a text: each `'\n'` ends one. -/
def linesOf : List UInt8 → List (List UInt8)
  | [] => []
  | c :: text =>
    if c = g_rc then [] :: linesOf text
    else
      match linesOf text with
      | [] => [[c]]
      | line :: lines => (c :: line) :: lines

end Leviathan.FileLines
