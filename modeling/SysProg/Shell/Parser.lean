import SysProg.Shell.Stack

set_option autoImplicit false

/-! # The line parser (`2/solution/parser.c`)

`parse_line` is one scan loop over the line with two quote flags, a stack for a pending backslash
(`stack`) and a stack for the word being built (`wstack`); its unquoted-word branch has a loop of its
own. `read_line` collects the bytes of one line from `stdin`. -/

namespace SysProg.Shell

def EOF : Int := -1

/-- What `next == EOF` and `next == '\x04'` see is the promoted `char`. -/
def isEof (next : CChar) : Bool := next.promote == EOF || next == chEot

def isEol (next prev : CChar) : Bool := next == chNewline && prev != chBackslash

/-! ## `parse_line` -/

/-- The variables of `parse_line`. -/
structure ParseState where
  stack : CharStack
  wstack : CharStack
  /-- The token arrays, each with its terminating NUL; `[]` stands for the NULL pointer. -/
  args : List (List CChar)
  argc : Int
  singleQuote : Bool
  doubleQuote : Bool
  idx : Nat
deriving DecidableEq, Repr

/-- How an iteration of a C loop ends: by going on to the next one, or by `break`. -/
inductive Flow where
  | next
  | brk
deriving DecidableEq, Repr

/-- The block that ends every branch producing a token. -/
def saveToken (s : ParseState) : Alloc ParseState := do
  let wstack ← csPush s.wstack chNul
  -- `realloc` of the initial NULL allocates, later calls only resize
  if s.args.isEmpty then malloc
  let wstackR ← csReverse wstack
  let token ← csSplice wstackR
  let wstack ← csFree wstack
  let _ ← csFree wstackR
  free
  pure { s with wstack := wstack, args := s.args ++ [token], argc := s.argc + 1 }

/-- `idx < len ? rs[idx] : nothing`, the guarded read of the lookaheads. -/
def charBelow (rs : List CChar) (len idx : Nat) : Alloc (Option CChar) :=
  if idx < len then do
    let c ← charAt rs idx
    pure (some c)
  else pure none

/-- The branch of an operator character `o`, one of `|`, `>` and `&`, possibly doubled. -/
def operatorToken (rs : List CChar) (len : Nat) (o : CChar) (s : ParseState) :
    Alloc ParseState := do
  let ahead ← charBelow rs len (s.idx + 1)
  let s ← if ahead = some o then do
      let c ← charAt rs s.idx
      let wstack ← csPush s.wstack c
      pure { s with wstack := wstack, idx := s.idx + 1 }
    else pure s
  let c ← charAt rs s.idx
  let wstack ← csPush s.wstack c
  saveToken { s with wstack := wstack }

/-- A character between double quotes that follows the pending backslash. -/
def doubleEscape (c : CChar) (s : ParseState) : Alloc ParseState := do
  let top ← csPeek s.stack
  if c = chNewline ∧ top = chBackslash then
    let stack ← csPop s.stack
    pure { s with stack := stack }
  else if c = chBackslash ∧ top = chBackslash then
    let stack ← csPop s.stack
    let wstack ← csPush s.wstack chBackslash
    pure { s with stack := stack, wstack := wstack }
  else if c = chDquote ∧ top = chBackslash then
    let stack ← csPop s.stack
    let wstack ← csPush s.wstack chDquote
    pure { s with stack := stack, wstack := wstack }
  else if c = chN ∧ top = chBackslash then
    let stack ← csPop s.stack
    let wstack ← csPush s.wstack chNewline
    pure { s with stack := stack, wstack := wstack }
  else if c = chT ∧ top = chBackslash then
    let stack ← csPop s.stack
    let wstack ← csPush s.wstack chTab
    pure { s with stack := stack, wstack := wstack }
  else if c = chR ∧ top = chBackslash then
    let stack ← csPop s.stack
    let wstack ← csPush s.wstack chReturn
    pure { s with stack := stack, wstack := wstack }
  else
    let wstack ← csPush s.wstack top
    let stack ← csPop s.stack
    let wstack ← csPush wstack c
    pure { s with stack := stack, wstack := wstack }

/-- In an unquoted word, a backslash followed by the operator character `o` at `idx`. -/
def escapedOperator (rs : List CChar) (len : Nat) (o : CChar) (s : ParseState) :
    Alloc (ParseState × Flow) := do
  if !csIsempty s.wstack then
    pure ({ s with idx := s.idx - 1 }, .brk)
  else
    let s := { s with idx := s.idx + 1 }
    let ahead ← charBelow rs len s.idx
    let s ← if ahead = some o then do
        let c ← charAt rs s.idx
        let wstack ← csPush s.wstack c
        pure { s with wstack := wstack }
      else pure s
    -- when `idx` has reached `len` this reads, and pushes, the terminating NUL
    let c ← charAt rs s.idx
    let wstack ← csPush s.wstack c
    pure ({ s with wstack := wstack }, .brk)

/-- One iteration of the unquoted-word loop, at `rs[idx] = c`. -/
def wordStep (rs : List CChar) (len : Nat) (c : CChar) (s : ParseState) :
    Alloc (ParseState × Flow) := do
  if c = chBackslash then
    let s := { s with idx := s.idx + 1 }
    match ← charBelow rs len s.idx with
    | none => pure (s, .next)
    | some d =>
      if d = chBackslash then
        let wstack ← csPush s.wstack chBackslash
        pure ({ s with wstack := wstack, idx := s.idx + 1 }, .next)
      else if d = chPipe then escapedOperator rs len chPipe s
      else if d = chGt then escapedOperator rs len chGt s
      else if d = chAmp then escapedOperator rs len chAmp s
      else if d = chNewline then pure ({ s with idx := s.idx + 1 }, .next)
      else
        let wstack ← csPush s.wstack d
        pure ({ s with wstack := wstack, idx := s.idx + 1 }, .next)
  else if c = chDquote ∨ c = chSquote then
    pure ({ s with idx := s.idx + 1 }, .next)
  else
    let wstack ← csPush s.wstack c
    pure ({ s with wstack := wstack, idx := s.idx + 1 }, .next)

/-- The unquoted-word loop. -/
def wordLoop (rs : List CChar) (len : Nat) : Nat → ParseState → Alloc ParseState
  | 0, _ => throw .diverge
  | fuel + 1, s => do
    match ← charBelow rs len s.idx with
    | none => pure s
    | some c =>
      if c ≠ chSpace ∧ c ≠ chTab then
        match ← wordStep rs len c s with
        | (s, .next) => wordLoop rs len fuel s
        | (s, .brk) => pure s
      else pure s

/-- One iteration of the scan loop: the branches in the order of the source. -/
def parseStep (rs : List CChar) (len : Nat) (s : ParseState) : Alloc (ParseState × Flow) := do
  let c ← charAt rs s.idx
  if !s.singleQuote && !s.doubleQuote && (c == chSpace || c == chTab) then
    pure (s, .next)
  else if !s.singleQuote && !s.doubleQuote && c == chHash then
    pure (s, .brk)
  else if !s.singleQuote && !s.doubleQuote && c == chPipe then
    let s ← operatorToken rs len chPipe s
    pure (s, .next)
  else if !s.singleQuote && !s.doubleQuote && c == chGt then
    let s ← operatorToken rs len chGt s
    pure (s, .next)
  else if !s.singleQuote && !s.doubleQuote && c == chAmp then
    let s ← operatorToken rs len chAmp s
    pure (s, .next)
  else if !s.singleQuote && !s.doubleQuote && c == chSquote then
    pure ({ s with singleQuote := true }, .next)
  else if s.singleQuote && !s.doubleQuote && c != chSquote then
    let wstack ← csPush s.wstack c
    pure ({ s with wstack := wstack }, .next)
  else if s.singleQuote && !s.doubleQuote && c == chSquote then
    let s ← saveToken { s with singleQuote := false }
    pure (s, .next)
  else if !s.singleQuote && !s.doubleQuote && c == chDquote then
    pure ({ s with doubleQuote := true }, .next)
  else if !s.singleQuote && s.doubleQuote && c == chDquote && csIsempty s.stack then
    let s ← saveToken { s with doubleQuote := false }
    pure (s, .next)
  else if !s.singleQuote && s.doubleQuote && c == chBackslash && csIsempty s.stack then
    let stack ← csPush s.stack chBackslash
    pure ({ s with stack := stack }, .next)
  else if !s.singleQuote && s.doubleQuote && c != chBackslash && csIsempty s.stack then
    let wstack ← csPush s.wstack c
    pure ({ s with wstack := wstack }, .next)
  else if !s.singleQuote && s.doubleQuote && !csIsempty s.stack then
    let s ← doubleEscape c s
    pure (s, .next)
  else if !s.singleQuote && !s.doubleQuote then
    let s ← wordLoop rs len (len + 1 - s.idx) s
    let s ← saveToken s
    pure (s, .next)
  else pure (s, .next)

/-- The scan loop `for (; idx < len; ++idx)`. -/
def parseLoop (rs : List CChar) (len : Nat) : Nat → ParseState → Alloc ParseState
  | 0, _ => throw .diverge
  | fuel + 1, s =>
    if s.idx < len then do
      match ← parseStep rs len s with
      | (s, .next) => parseLoop rs len fuel { s with idx := s.idx + 1 }
      | (s, .brk) => pure s
    else pure s

/-- `parse_line` up to the end of its scan loop; also the value of `len`. -/
def parseScan (rs : List CChar) : Alloc (ParseState × Nat) := do
  let stack ← csInit
  let wstack ← csInit
  let len ← strlen rs
  let s ← parseLoop rs len (len + 1)
    { stack := stack, wstack := wstack, args := [], argc := 0, singleQuote := false,
      doubleQuote := false, idx := 0 }
  pure (s, len)

/-- A `struct pair` of an array and a count. The second pointer of the source is the address of a
    local; the count is the value stored there when the pair is made. -/
structure Pair (α : Type) where
  first : List α
  second : Int
deriving DecidableEq, Repr

def makePair {α : Type} (first : List α) (second : Int) : Alloc (Pair α) := do
  malloc
  pure ⟨first, second⟩

def parseLine (rs : List CChar) : Alloc (Pair (List CChar)) := do
  let (s, _) ← parseScan rs
  let _ ← csFree s.stack
  let _ ← csFree s.wstack
  free
  free
  makePair s.args s.argc

/-! ## `read_line` -/

/-- `getc(stdin)`, with the bytes left to read. -/
def getc : List CChar → Int × List CChar
  | [] => (EOF, [])
  | c :: stdin => (c.toNat, stdin)

/-- The variables of `read_line` and the bytes left on `stdin`. -/
structure ReadState where
  index : Int
  size : Int
  /-- The characters written to `raw_line` so far. -/
  rawLine : List CChar
  prev : CChar
  doubleQuote : Bool
  stdin : List CChar
deriving DecidableEq, Repr

/-- The end of an iteration: grow the buffer when `index` is near its end, and store `next`. `size`
    and `index` are `int`. -/
def storeChar (next : CChar) (s : ReadState) : Alloc ReadState := do
  let size ← if s.index - 1 ≤ s.size then int32 (s.size + 2) else pure s.size
  let index ← int32 (s.index + 1)
  if s.index < size then
    pure { s with size := size, index := index, rawLine := s.rawLine ++ [next], prev := next }
  else throw .undefined

/-- One iteration of the loop of `read_line`. -/
def readStep (s : ReadState) : Alloc (ReadState × Flow) := do
  let next := CChar.ofInt (getc s.stdin).1
  let s := { s with stdin := (getc s.stdin).2 }
  if s.doubleQuote && next == chDquote then
    let s ← storeChar next { s with doubleQuote := false }
    pure (s, .next)
  else if !s.doubleQuote && next == chDquote then
    let s ← storeChar next { s with doubleQuote := true }
    pure (s, .next)
  else if !s.doubleQuote && s.prev == chBackslash && next == chNewline then
    pure ({ s with prev := chS }, .next)
  else if isEof next then pure (s, .brk)
  else if isEol next s.prev && !s.doubleQuote then pure (s, .brk)
  else
    let s ← storeChar next s
    pure (s, .next)

def readLoop : Nat → ReadState → Alloc ReadState
  | 0, _ => throw .diverge
  | fuel + 1, s => do
    match ← readStep s with
    | (s, .next) => readLoop fuel s
    | (s, .brk) => pure s

/-- The variables of `read_line` when its loop starts. -/
def readInit (stdin : List CChar) : ReadState :=
  { index := 0, size := 128, rawLine := [], prev := chS, doubleQuote := false, stdin := stdin }

/-- `read_line`, with the bytes it leaves on `stdin`. -/
def readLine (stdin : List CChar) : Alloc (List CChar × List CChar) := do
  malloc
  let s ← readLoop (stdin.length + 1) (readInit stdin)
  let _ ← int32 (s.index + 1)
  if s.index < s.size then pure (s.rawLine ++ [chNul], s.stdin)
  else throw .undefined

/-! ## Results as strings -/

/-- The end state of the scan of the C string `s`. -/
def scanLine (s : List CChar) : C ParseState := do
  let ((st, _), _) ← (parseScan (s ++ [chNul])).run 0
  pure st

/-- The tokens a caller of `parse_line` finds for the C string `s`: the first `argc` entries of the
    array, each up to its NUL. -/
def parseTokens (s : List CChar) : C (List (List CChar)) := do
  let (p, _) ← (parseLine (s ++ [chNul])).run 0
  pure ((p.first.take p.second.toNat).map cstr)

/-- The tokens `parse_line` finds in the line `read_line` reads from a stream. -/
def readTokens (stdin : List CChar) : C (List (List CChar)) := do
  let ((buf, _), live) ← (readLine stdin).run 0
  let (p, _) ← (parseLine buf).run live
  pure ((p.first.take p.second.toNat).map cstr)

end SysProg.Shell
