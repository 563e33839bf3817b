import Sos.Constants

/-!
# The shell

The main loop of `sosh`: it reads chunks of input into `buf`, looks for the end of a line with the
cursors `p` and `next`, copies the line to `line`, and splits it into arguments. The result is the
sequence of the argument vectors dispatched; the commands are taken to return. The flag `new`
decides on the prompt only and is left out.

The cursors are indices in `buf`, and may be off it after a backspace.
-/

namespace Sos.Shell

def newline : UInt8 := 10
def space : UInt8 := 32

/-- What a call of `read` gives: some bytes, or an error. The end of the input is `SOS_VFS_EOF`. -/
inductive Input
  | data (bytes : List UInt8)
  | failed

/-- The variables of `main`; `line` is the string in the array of that name. -/
structure State where
  buf : Nat → UInt8
  line : List UInt8
  next : Int
  r : Int
  lineDone : Bool
  lineMore : Bool

/-- `bp`. It is set to `buf` at the start and not changed. -/
def bp : Nat := 0

/-- The variables at the start. The two arrays are not initialised. -/
def start (buf : Nat → UInt8) (line : List UInt8) : State where
  buf := buf
  line := line
  next := 0
  r := 0
  lineDone := true
  lineMore := false

namespace State

/-- `r = read(in, bp, …)` and what follows it. -/
def read (s : State) (bytes : List UInt8) : State :=
  { s with
    buf := fun i => if bp ≤ i ∧ i < bp + bytes.length then bytes.getD (i - bp) 0 else s.buf i
    r := bytes.length
    next := bp
    lineDone := false
    lineMore := false }

/-- `bp[r] = '\0'`. -/
def terminate (s : State) : State := { s with buf := Function.update s.buf (bp + s.r).toNat 0 }

/-- `strncpy(line, next, p - next + 1)`, with NUL at `p`. -/
def copyLine (s : State) (p : Int) : List UInt8 :=
  ((List.range (p - s.next).toNat).map fun i => s.buf (s.next.toNat + i)).takeWhile (· ≠ 0)

/-- The end of a line at `p`: it is copied, and the next one starts after it. -/
def takeLine (s : State) (p : Int) : State :=
  { s with
    buf := Function.update s.buf p.toNat 0
    line := s.copyLine p
    lineDone := s.lineDone || p - s.next + 1 = s.r
    next := p + 1 }

/-- The loop over the characters: `found`, and the variables. Each round takes `p` closer to
`bp + r`. -/
def scan : Nat → Int → Bool → State → Bool × State
  | 0, _, found, s => (found, s)
  | n + 1, p, found, s =>
    if p < bp + s.r then
      let c := s.buf p.toNat
      if c = 3 then (found, { s with lineDone := true }) -- ^C
      else if c = 4 then scan n (p + 2) true s -- ^D
      else if c = 8 ∨ c = 127 then -- ^H and DEL
        if 0 < p then scan n (p - 1) found { s with r := s.r - 2 }
        else scan n p found { s with r := s.r - 1 }
      else if c = newline then (true, s.takeLine p)
      else scan n (p + 1) found s
    else (found, s)

end State

/-- The first part of the inner loop: read if more input is needed. `none` if the shell ends, at the
end of the input or on an error. -/
def fetch (s : State) (inputs : List Input) : Option (State × List Input) :=
  if s.lineDone ∨ s.lineMore then
    match inputs with
    | [] | .failed :: _ => none
    | .data bytes :: inputs => some (s.read bytes, inputs)
  else if s.r < 0 then none -- the backspaces took more than there was
  else some (s, inputs)

/-- The inner loop, for at most `n` rounds: the state with a line found, or `none` if the shell
ends. -/
def readLine : Nat → State → List Input → Option (Option (State × List Input))
  | 0, _, _ => none
  | n + 1, s, inputs =>
    match fetch s inputs with
    | none => some none
    | some (s, inputs) =>
      let (found, s) := s.terminate.scan (s.r - s.next + 1).toNat s.next false
      if found then some (some (s, inputs)) else readLine n { s with lineMore := true } inputs

/-- The loop that splits a line into arguments. -/
def tokenise : Nat → List UInt8 → List (List UInt8)
  | 0, _ => []
  | n + 1, p =>
    match p.dropWhile (· = space) with
    | [] => []
    | c :: p =>
      (c :: p).takeWhile (· ≠ space) :: tokenise n (((c :: p).dropWhile (· ≠ space)).drop 1)

/-- What is left of the string `line`: the first space after the first argument is nulled out. -/
def firstArgument (line : List UInt8) : List UInt8 :=
  line.takeWhile (· = space) ++ (line.dropWhile (· = space)).takeWhile (· ≠ space)

/-- The main loop, for at most `n` lines: the argument vectors dispatched. -/
def mainLoop : Nat → State → List Input → Option (List (List (List UInt8)))
  | 0, _, _ => none
  | n + 1, s, inputs => do
    match ← readLine (inputs.length + 2) s inputs with
    | none => return []
    | some (s, inputs) =>
      let argv := tokenise (s.line.length + 1) s.line
      let rest ← mainLoop n { s with line := firstArgument s.line } inputs
      return if argv.length = 0 then rest else argv :: rest

/-- The number of bytes of the inputs. -/
def Input.length : Input → Nat
  | .data bytes => bytes.length
  | .failed => 0

/-- The shell on some input, with what is in the two arrays at the start. -/
def sosh (buf : Nat → UInt8) (line : List UInt8) (inputs : List Input) :
    Option (List (List (List UInt8))) :=
  mainLoop ((inputs.map Input.length).sum + 1) (start buf line) inputs

end Sos.Shell
