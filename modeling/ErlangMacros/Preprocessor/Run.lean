import ErlangMacros.Preprocessor.Evaluation

/-!
# Running the preprocessor

`step` reads one token and takes it, or the whole directive or macro call that it starts.  `next` goes on until a
token is emitted, and `pulls` takes several tokens.  Both `next` and `pulls` are given the number of steps that they
may take for a token.
-/

namespace ErlangMacros

namespace Preprocessor

/-- Read the tokens of a directive that follow `last` up to its final `.`, which has to stand in the same file.  The
directive never ends if one token comes for ever. -/
def collectRest (keyword : Text) (last : Token) (r : Reader) : Except Failure (List Token) × Reader :=
  if hr : r.repeats false then (.error (.fault .endless), r)
  else
    match h : r.read false with
    | (.failed e, r') => (.error (.ofLex e), r')
    | (.finished, r') => (.error (.diagnose (.missingStop keyword) (some last.position)), r')
    | (.token t, r') =>
      if t.isSymbol "." then (.ok [t], r')
      else
        have := Reader.size_read h (by simpa using hr)
        let (rest, r'') := collectRest keyword t r'
        (rest.map (t :: ·), r'')
termination_by r.size

/-- Read the tokens of the directive that `hyphen` starts; `none` if what follows is not the keyword of a
directive. -/
def collect (r : Reader) (hyphen : Token) : Except Failure (Option (List Token)) × Reader :=
  match r.peek with
  | (.failed e, r') => (.error (.ofLex e), r')
  | (.finished, r') => (.ok none, r')
  | (.token t, r') =>
    if t.kind = .atom && (Keyword.ofText? t.text).isSome then
      match collectRest t.text hyphen r' with
      | (.ok rest, r'') => (.ok (some (hyphen :: rest)), r'')
      | (.error f, r'') => (.error f, r'')
    else (.ok none, r')

/-- What is told about the files that were left between two states of the reader. -/
def leaving (r r' : Reader) : List Event :=
  (r.inclusion.leftOn r'.inclusion).map .leaving

/-- Expand the call that a question mark starts.  Calls that stand in a source are recorded. -/
def expand (p : Preprocessor) (question : Token) : Step :=
  let site := Expansion.Site.ofReader p.reader question
  let (resolved, reader) := Expansion.resolve p.context site p.reader
  let told := leaving p.reader reader
  let p' := { p with reader }
  match resolved with
  | .error f => (Step.failed p' f).after told
  | .ok call =>
    let told := told ++ match call.meaning with
      | .definition m _ => [.expanding m question.position]
      | .predefined _ => []
    match Expansion.push p.context site call reader with
    | .error f => (Step.failed p' f).after told
    | .ok reader =>
      let record : MacroCall := ⟨question, call.nameToken, call.args⟩
      let calls := if p.reader.fromSource then record :: p.calls else p.calls
      .changed { p with reader, calls } told

/-- The module name in the three tokens after the `-` of an attribute. -/
def moduleAttribute? : List Token → Option Token
  | [keyword, paren, name] =>
    if keyword.kind = .atom && keyword.text = "module" && paren.isSymbol "(" && name.kind = .atom then some name
    else none
  | _ => none

/-- Emit a token.  On the way watch for the module attribute, which gives the module its name. -/
def emit (p : Preprocessor) (t : Token) (atFormStart : Bool) : Step :=
  if p.moduleFixed then ⟨.emit t, p, []⟩
  else
    match p.watched with
    | some seen =>
      let seen := seen ++ [t]
      if seen.length = 3 then
        match moduleAttribute? seen with
        | some name =>
          match name.value with
          | .ok moduleName =>
            ⟨.emit t, { p with moduleName := some moduleName, watched := none }, [.moduleNamed moduleName]⟩
          | .error e => .failed p (.fault (.escape e))
        | none => ⟨.emit t, { p with watched := none }, []⟩
      else ⟨.emit t, { p with watched := some seen }, []⟩
    | none =>
      if atFormStart && t.isSymbol "-" then ⟨.emit t, { p with watched := some [] }, []⟩ else ⟨.emit t, p, []⟩

/-- Take a token that starts no directive. -/
def ordinary (p : Preprocessor) (t : Token) : Step :=
  let atFormStart := p.formStart
  let p := { p with formStart := t.isSymbol "." }
  if !p.conditions.active then .changed p
  else if t.isSymbol "?" then p.expand t
  else p.emit t atFormStart

/-- Take a token that has just been read. -/
def take (w : World) (p : Preprocessor) (t : Token) : Step :=
  if p.formStart && p.reader.fromSource && t.isSymbol "-" then
    match collect p.reader t with
    | (.error f, reader) => .failed { p with reader } f
    | (.ok none, reader) => ordinary { p with reader } t
    | (.ok (some tokens), reader) => directive w { p with reader } tokens
  else p.ordinary t

/-- One step of a run. -/
def step (w : World) (p : Preprocessor) : Step :=
  let (pull, reader) := p.reader.read
  let told := leaving p.reader reader
  let p := { p with reader }
  match pull with
  | .failed e => (Step.failed p (.ofLex e)).after told
  | .finished =>
    match p.conditions.finish with
    | .ok () => ⟨.finish, p, told⟩
    | .error e => (Step.failed p (.error e)).after told
  | .token t => (take w p t).after told

/-- What asking for a token gives. -/
inductive Answer where
  | token (t : Token)
  | stop
  | failed (f : Failure)
  | outOfFuel
deriving DecidableEq

/-- An answer, the state after it and what is told of it. -/
structure Next where
  answer : Answer
  state : Preprocessor
  events : List Event := []
deriving DecidableEq

/-- Go on until a token is emitted.  The end of the input and every failure close the run. -/
def next (w : World) : Nat → Preprocessor → Next
  | 0, p => if p.done then ⟨.stop, p, []⟩ else ⟨.outOfFuel, p, []⟩
  | fuel + 1, p =>
    if p.done then ⟨.stop, p, []⟩
    else
      let s := step w p
      match s.outcome with
      | .emit t => ⟨.token t, s.state, s.events⟩
      | .finish => ⟨.stop, s.state.close, s.events⟩
      | .fail f => ⟨.failed f, s.state.close, s.events⟩
      | .proceed =>
        let n := next w fuel s.state
        { n with events := s.events ++ n.events }

/-- How taking tokens ended. -/
inductive RunEnd where
  /-- All tokens that were asked for came. -/
  | limit
  | stop
  | failed (f : Failure)
deriving DecidableEq

/-- Tokens that were taken, how that ended, the state after it and what is told of it. -/
structure Run where
  tokens : List Token
  ending : RunEnd
  state : Preprocessor
  events : List Event := []
deriving DecidableEq

/-- Take up to the given number of tokens. -/
def pulls (w : World) (fuel : Nat) : Nat → Preprocessor → Run
  | 0, p => ⟨[], .limit, p, []⟩
  | count + 1, p =>
    let n := next w fuel p
    match n.answer with
    | .token t =>
      let r := pulls w fuel count n.state
      { r with tokens := t :: r.tokens, events := n.events ++ r.events }
    | .stop => ⟨[], .stop, n.state, n.events⟩
    | .failed f => ⟨[], .failed f, n.state, n.events⟩
    | .outOfFuel => ⟨[], .failed (.fault .outOfFuel), n.state, n.events⟩

/-- Take all tokens, if there are no more of them than `fuel`. -/
def run (w : World) (fuel : Nat) (p : Preprocessor) : Run :=
  let r := pulls w fuel fuel p
  match r.ending with
  | .limit => { r with ending := .failed (.fault .outOfFuel) }
  | _ => r

end Preprocessor

end ErlangMacros
