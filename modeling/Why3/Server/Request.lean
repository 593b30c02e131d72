import Why3.Core.NumberText

/-!
# Requests to the prover server

The client writes a request as a line of fields, after `src/driver/prove_client.ml`. The
server reads what has arrived in pieces of any length, cuts it at the ends of lines and
parses each line, after `src/server/request.c` and the loop of `src/server/server-unix.c`.

A C string ends at its first null character, and `long` has 64 bits. Positions in a buffer are of
the type `int`: a line, together with the piece that arrives at its end, is shorter than `2 ^ 31`.
The rest of the buffer is moved to its start by a `memcpy` between parts that may overlap
(`have_taken`), which is taken to copy like `memmove`.
-/

namespace Why3

/-! ## The client -/

inductive Request where
  | run (id : ℤ) (timelimit memlimit : ℕ) (cmd : List Text) (useStdin : Option Text)
  | interrupt (id : ℤ)

def Request.fields : Request → List Text
  | run id timelimit memlimit cmd useStdin =>
    (if useStdin.isSome then "runstdin".toList else "run".toList) :: bigIntToString id ::
      bigIntToString timelimit :: bigIntToString memlimit :: (cmd ++ useStdin.toList)
  | interrupt id => ["interrupt".toList, bigIntToString id]

/-- `send_request` and `send_interrupt`. -/
def sendRequest (r : Request) : Text := [';'].intercalate r.fields ++ ['\n']

/-! ## Conversions of C -/

def cString (s : Text) : Text := s.takeWhile (· ≠ '\x00')

def strncmp (s t : Text) (n : ℕ) : Bool := s.take n = t.take n

def isSpace (c : Char) : Bool := c ∈ [' ', '\t', '\n', '\x0b', '\x0c', '\r']

def leadingNumber (s : Text) : ℕ :=
  match parseInBase 10 (s.takeWhile isDec) with
  | .ok n => n
  | .error _ => 0

def strtol (s : Text) : ℤ :=
  match s.dropWhile isSpace with
  | '-' :: s => max (-2 ^ 63) (-leadingNumber s)
  | '+' :: s => min (2 ^ 63 - 1) (leadingNumber s)
  | s => min (2 ^ 63 - 1) (leadingNumber s)

def longToInt (i : ℤ) : ℤ := (i + 2 ^ 31) % 2 ^ 32 - 2 ^ 31

def atoi (s : Text) : ℤ := longToInt (strtol s)

/-! ## The server -/

/-- The requests of the server. The client is known by its key. -/
inductive ServerRequest where
  | run (key : ℕ) (id : Text) (timeout : ℤ) (memlimit : ℕ) (usestdin : Bool) (cmd : Text)
      (args : List Text)
  | interrupt (key : ℕ) (id : Text)
  deriving DecidableEq

def countSemicolons (buf : Text) : ℕ := buf.count ';'

/-- The field that starts at `begin`, and the place of the next one, zero at the end. -/
def copyUpToSemicolon (buf : Text) (begin : ℕ) : Text × ℕ :=
  let field := (buf.drop begin).takeWhile (· ≠ ';')
  let i := begin + field.length
  (cString field, if i = buf.length then 0 else i + 1)

def copyArgs (buf : Text) : ℕ → ℕ → List Text
  | 0, _ => []
  | numargs + 1, pos =>
    let (arg, pos) := copyUpToSemicolon buf pos
    arg :: copyArgs buf numargs pos

/-- A request with one semicolon. The number of processes that run in parallel may change. -/
def parseCommand (parallel : ℤ) (buf : Text) (key : ℕ) : ℤ × Option ServerRequest :=
  let (tmp, pos) := copyUpToSemicolon buf 0
  if strncmp tmp "parallel".toList pos then
    let parallelArg := atoi (copyUpToSemicolon buf pos).1
    (if parallelArg ≥ 1 then parallelArg else parallel, none)
  else if strncmp tmp "interrupt".toList pos then
    (parallel, some (.interrupt key (copyUpToSemicolon buf pos).1))
  else (parallel, none)

def parseRun (buf : Text) (key numargs : ℕ) : Option ServerRequest :=
  let (tmp, pos) := copyUpToSemicolon buf 0
  if strncmp tmp "run".toList pos || strncmp tmp "runstdin".toList pos then
    let runstdin := !strncmp tmp "run".toList pos
    let (id, pos) := copyUpToSemicolon buf pos
    let (timeout, pos) := copyUpToSemicolon buf pos
    let (memlimit, pos) := copyUpToSemicolon buf pos
    let (cmd, pos) := copyUpToSemicolon buf pos
    some (.run key id (atoi timeout) (atoi memlimit % 2 ^ 32).toNat runstdin cmd
      (copyArgs buf numargs pos))
  else none

def parseRequest (parallel : ℤ) (buf : Text) (key : ℕ) : ℤ × Option ServerRequest :=
  let semic := countSemicolons buf
  if semic = 0 then (parallel, none)
  else if semic = 1 then parseCommand parallel buf key
  else if semic < 4 then (parallel, none)
  else (parallel, parseRun buf key (semic - 4))

/-- The state of the server: the requests that were read, the oldest first, and what has
arrived of the next line. -/
structure Server where
  parallel : ℤ
  requests : List ServerRequest
  readbuf : Text

def Server.addLine (key : ℕ) (s : Server) : Server :=
  let (parallel, r) := parseRequest s.parallel s.readbuf key
  ⟨parallel, s.requests ++ r.toList, []⟩

def Server.readChar (key : ℕ) (s : Server) (c : Char) : Server :=
  if c = '\n' then s.addLine key else { s with readbuf := s.readbuf ++ [c] }

def Server.handleMsg (key : ℕ) (s : Server) : Server :=
  s.readbuf.foldl (Server.readChar key) { s with readbuf := [] }

def Server.readOnClient (key : ℕ) (s : Server) (chunk : Text) : Server :=
  Server.handleMsg key { s with readbuf := s.readbuf ++ chunk }

/-! ## What a request asks for -/

structure Job where
  id : Text
  timeout : ℤ
  memlimit : ℕ
  cmd : Text
  argv : List Text
  stdinFile : Option Text

inductive Order where
  | run (job : Job)
  | interrupt (id : Text)

/-- What the server does: `create_process` takes the file from the arguments. -/
def ServerRequest.order : ServerRequest → Order
  | run _ id timeout memlimit usestdin cmd args =>
    .run ⟨id, timeout, memlimit, cmd, if usestdin then args.dropLast else args,
      if usestdin then args.getLast? else none⟩
  | interrupt _ id => .interrupt id

def Request.order : Request → Order
  | run id timelimit memlimit cmd useStdin =>
    .run ⟨bigIntToString id, timelimit, memlimit, cmd.headD [], cmd.tail, useStdin⟩
  | interrupt id => .interrupt (bigIntToString id)

def Request.strings : Request → List Text
  | run _ _ _ cmd useStdin => cmd ++ useStdin.toList
  | interrupt _ => []

/-- The requests that can be sent: a command is not empty and C strings have no null
characters. -/
structure Request.Sendable (r : Request) : Prop where
  strings : ∀ s ∈ r.strings, '\x00' ∉ s
  cmd : ∀ id timelimit memlimit cmd useStdin, r = .run id timelimit memlimit cmd useStdin → cmd ≠ []

/-- The strings contain no separators, and the limits are within the types of the server. -/
def Request.Plain (r : Request) : Prop :=
  (∀ s ∈ r.strings, ';' ∉ s ∧ '\n' ∉ s) ∧
    match r with
    | run _ timelimit memlimit _ _ => timelimit < 2 ^ 31 ∧ memlimit < 2 ^ 32
    | interrupt _ => True

end Why3
