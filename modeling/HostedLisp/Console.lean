import HostedLisp.Session
import HostedLisp.Text.Blank

/-!
# The file runner and the dialogue

Two programs use sessions. The file runner runs one text and prints its value; the dialogue reads
a line at a time and prints the value of each, all in one session. Both are functions here: what
they print, where to, and the status they end with.

* `runFile` -- the file runner, given its argument and what the file holds;
* `Dialogue.step` -- what one line does;
* `dialogue` -- the whole dialogue over the lines of an input.
-/

namespace HostedLisp

/-- What a program printed, and the status it ended with. -/
structure Transcript where
  stdout : String
  stderr : String
  status : Nat
deriving DecidableEq

namespace Console

/-- The status that a process ends with: the lowest eight bits of the code. -/
def statusOf (code : Int32) : Nat := (code.toInt % 256).toNat

/-- How a value is printed: its written form on a line, and nothing for the unspecified value. -/
def printed : Value → String
  | .unspecified => ""
  | v => v.write ++ "\n"

/-- The fault of a text that is not encoded as it should be. -/
def undecodable : String := "stream did not contain valid UTF-8"

/-! ## 1. The file runner -/

/-- Runs a program in a fresh standard session. -/
def runProgram (source : String) : Transcript :=
  let (outcome, session) := Session.standard.run source
  let (output, _) := session.takeOutput
  match outcome with
  | .value v => ⟨output ++ printed v, "", 0⟩
  | .failure (.exit code) => ⟨output, "", statusOf code⟩
  | .failure e => ⟨output, e.message ++ "\n", 1⟩
  | .unfinished => ⟨output, "", 1⟩

/-- The file runner: `contents` reads a file, or says why it cannot be read. -/
def runFile (contents : String → Except String String) : List String → Transcript
  | [] => ⟨"", "Usage: cid <file>\n", 1⟩
  | path :: _ =>
    match contents path with
    | .error reason => ⟨"", "Unable to read file: " ++ path ++ ": " ++ reason ++ "\n", 1⟩
    | .ok source => runProgram source

/-! ## 2. The dialogue -/

namespace Dialogue

/-- The first line of the dialogue. -/
def greeting : String :=
  "cidlang " ++ version ++ " - type :help for commands, :quit to leave\n"

/-- The answer to `:help`. -/
def help : String :=
  String.join
    ["Enter an expression to evaluate it. Definitions persist between lines.\n",
      "\n",
      "  (define square (lambda (x) (* x x)))\n",
      "  (square 12)\n",
      "  '(1 2 3)\n",
      "\n",
      "Commands:\n",
      "  :help   show this message\n",
      "  :env    list global bindings\n",
      "  :quit   leave the REPL (or call (exit 0))\n"]

/-- The dialogue between two lines: the session, and the number of the next evaluation. -/
structure State where
  session : Session
  number : Nat

/-- The dialogue at its beginning. -/
def State.initial : State := ⟨.standard, 1⟩

/-- The prompt for the next line. -/
def State.prompt (d : State) : String := "cid[" ++ d.number.repr ++ "]> "

/-- A line of the input, if it can be decoded. -/
abbrev Line := Option String

/-- What a line leads to: texts to print, and the dialogue that follows or the final status. -/
structure Reply where
  stdout : String
  stderr : String
  next : Except Nat State

/-- Evaluates a line. -/
def evaluate (d : State) (source : String) : Reply :=
  let (outcome, session) := d.session.run source
  let (output, session) := session.takeOutput
  let next : State := ⟨session, d.number + 1⟩
  match outcome with
  | .value v => ⟨output ++ printed v, "", .ok next⟩
  | .failure (.exit code) => ⟨output, "", .error (statusOf code)⟩
  | .failure e => ⟨output, e.message ++ "\n", .ok next⟩
  | .unfinished => ⟨output, "", .error 1⟩

/-- What one line does. Blanks around it do not matter, and a blank line does nothing. -/
def step (d : State) : Line → Reply
  | none => ⟨"", "Error: " ++ undecodable ++ "\n", .error 1⟩
  | some line =>
    let source := Text.trim line
    if source = "" then ⟨"", "", .ok d⟩
    else if source = ":quit" || source = ":q" then ⟨"", "", .error 0⟩
    else if source = ":help" then ⟨help, "", .ok d⟩
    else if source = ":env" then
      let names := (d.session.store.bindingsOf Session.globalFrame).names
      ⟨" ".intercalate names ++ "\n", "", .ok d⟩
    else evaluate d source

/-- The dialogue over the remaining lines, after the texts printed so far. The end of the input
    ends it. -/
def steps (d : State) (stdout stderr : String) : List Line → Transcript
  | [] => ⟨stdout ++ d.prompt, stderr, 0⟩
  | line :: lines =>
    let reply := step d line
    let stdout := stdout ++ d.prompt ++ reply.stdout
    let stderr := stderr ++ reply.stderr
    match reply.next with
    | .error status => ⟨stdout, stderr, status⟩
    | .ok d => steps d stdout stderr lines

end Dialogue

/-- The whole dialogue over the lines of an input. -/
def dialogue (lines : List Dialogue.Line) : Transcript :=
  Dialogue.steps .initial Dialogue.greeting "" lines

/-! ## 3. Lines -/

/-- The pieces of a list between the elements equal to `mark`; a last piece counts only if it is
    not empty. -/
def pieces {α : Type} [DecidableEq α] (mark : α) : List α → List (List α)
  | [] => []
  | a :: as =>
    if a = mark then [] :: pieces mark as
    else
      match pieces mark as with
      | [] => [[a]]
      | p :: ps => (a :: p) :: ps

/-- A line without the carriage return at its end. -/
def dropReturn (line : String) : String :=
  match line.toList.reverse with
  | '\r' :: cs => String.ofList cs.reverse
  | _ => line

/-- The lines of an input, each decoded by itself. -/
def linesOf (input : ByteArray) : List Dialogue.Line :=
  (pieces 10 input.toList).map fun bytes =>
    (String.fromUTF8? ⟨bytes.toArray⟩).map dropReturn

end Console

end HostedLisp
