import TreeScript.Action
import TreeScript.Source
import TreeScript.Token.Scanner

/-!
# Token streams

A stream hands out the tokens of a source one after another, with any number of
tokens of look-ahead. It keeps a queue of tokens that are cut but not handed out,
the lines that are not yet touched, and the number of the last line that was
text.

A line is taken only when the queue is too short for what is asked. Its tokens
and an end of line join the queue. A garbled line is an error. It is used up but
not counted. A line with a fault is an error too. It is used up and counted, and
none of its tokens joins the queue. In both cases the next request goes on with
the next line.

When no line is left the answer is the end of the source, at the last line
number, as often as one asks.
-/

namespace TreeScript

/-- Why a source gives no next token. -/
inductive ReadError where
  /-- A line cannot be cut into tokens. -/
  | badToken (fault : Token.Fault)
  /-- A line is not text. -/
  | garbled
deriving DecidableEq, Repr

/-- What is wrong with a garbled line. -/
def garbledText : String := "stream did not contain valid UTF-8"

/-- The text of a read error. -/
def ReadError.message : ReadError → String
  | .badToken fault => "bad token at line " ++ toString fault.line ++ ": " ++ fault.text
  | .garbled => "failed to read source: " ++ garbledText

/-- The tokens of a source, read line by line. -/
structure TokenStream where
  /-- The tokens that are cut but not handed out. -/
  queue : List Token
  /-- The lines that are not yet touched. -/
  pending : Source
  /-- The number of the last line that was text. -/
  line : Nat
deriving DecidableEq, Repr

namespace TokenStream

/-- The stream of a whole source. -/
def ofSource (source : Source) : TokenStream := ⟨[], source, 0⟩

/-- The end of the source, at the last line. -/
def endOfFile (stream : TokenStream) : Token := ⟨.endOfFile, stream.line⟩

/-- Takes lines until the queue holds a token at index `n` or no line is left. -/
def fillFrom (n : Nat) : Source → List Token → Nat → Outcome TokenStream ReadError Unit
  | [], queue, line => .value () ⟨queue, [], line⟩ []
  | first :: rest, queue, line =>
      if n < queue.length then .value () ⟨queue, first :: rest, line⟩ []
      else
        match first with
        | .garbled => .error .garbled ⟨queue, rest, line⟩ []
        | .text content =>
            match Token.tokenize content (line + 1) with
            | .error fault => .error (.badToken fault) ⟨queue, rest, line + 1⟩ []
            | .ok tokens =>
                (fillFrom n rest (queue ++ tokens ++ [⟨.endOfLine, line + 1⟩]) (line + 1)).after
                  [.scanned (line + 1) tokens.length]
termination_by structural source => source

/-- Takes lines until the queue holds a token at index `n` or no line is left. -/
def fill (n : Nat) : Action TokenStream ReadError Unit := fun stream =>
  fillFrom n stream.pending stream.queue stream.line

/-- The token that is `n` tokens ahead. Nothing is handed out. -/
def peek (n : Nat) : Action TokenStream ReadError Token := do
  fill n
  Action.view fun stream => stream.queue[n]?.getD stream.endOfFile

/-- Takes the first token off the queue. -/
def pop (stream : TokenStream) : Token × TokenStream :=
  match stream.queue with
  | [] => (stream.endOfFile, stream)
  | token :: queue => (token, { stream with queue })

/-- Hands out the next token. -/
def read : Action TokenStream ReadError Token := do
  fill 0
  Action.transition pop

/-- No more tokens than this can come from a line. -/
def lineBound : Line → Nat
  | .text content => content.utf8ByteSize + 1
  | .garbled => 1

/-- No more tokens than this can come from a source. -/
def sourceBound : Source → Nat
  | [] => 0
  | line :: lines => lineBound line + sourceBound lines
termination_by structural lines => lines

/-- No more tokens than this can come from the stream. -/
def bound (stream : TokenStream) : Nat := stream.queue.length + sourceBound stream.pending

/-- A queue that is long enough is left alone. -/
theorem fill_of_lt {n : Nat} {stream : TokenStream} (h : n < stream.queue.length) :
    fill n stream = .value () stream [] := by
  obtain ⟨queue, pending, line⟩ := stream
  cases pending with
  | nil => rfl
  | cons first rest =>
      have hn : n < queue.length := h
      simp [fill, fillFrom, hn]

/-- With no line left there is nothing to take. -/
theorem fill_of_pending_nil {n : Nat} {stream : TokenStream} (h : stream.pending = []) :
    fill n stream = .value () stream [] := by
  obtain ⟨queue, pending, line⟩ := stream
  subst h
  rfl

end TokenStream

end TreeScript
