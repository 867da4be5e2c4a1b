import Ral.Session.Live

/-! # An agent and its log

Who calls a log's operations: an exchange commits a prompt and deliberates on it, a nudge has it
go on with the prompt it named, and commands run between exchanges.
-/

namespace Ral.Session

/-- A text for the log, and the prompt it continues. -/
structure Prompt where
  text : String
  voice : Voice
  continues : Option ℕ

/-- Where an agent is: between exchanges, with a prompt to commit, or past it. -/
inductive Phase
  | resting
  | attempting (prompt : Prompt)
  | deliberating

/-- The newest prompt, resident or not. -/
def Context.currentPrompt (c : Context) : Option ℕ := (c.table.turns.reverse.find? Turn.isUser).map Turn.id

namespace Operation

/-- What a deliberation calls once its prompt is committed. -/
def Deliberates : Operation → Prop
  | .appendSteering _ _ => True
  | .appendAssistant _ _ _ => True
  | .appendToolResults _ => True
  | .evict _ _ _ => True
  | .quiesce _ => True
  | _ => False

/-- What is called between exchanges; the one note is the user's, of a session resumed. -/
def Commands : Operation → Prop
  | .importNote message => ∃ text, message = .user text
  | .evict _ _ _ => True
  | .rewind _ => True
  | .clear => True
  | .quiesce _ => True
  | _ => False

end Operation

namespace Phase

/-- What is called of the log in a phase. -/
def Runs : Phase → Operation → Prop
  | .resting, op => op.Commands
  | .attempting prompt, op => op = .appendUser prompt.text prompt.continues prompt.voice
  | .deliberating, op => op.Deliberates

/-- A prompt that did not commit ends its exchange. -/
def after : Phase → Outcome → Phase
  | .attempting _, .committed => .deliberating
  | .attempting _, _ => .resting
  | phase, _ => phase

/-- The exchange has committed a prompt. -/
def Owned : Phase → Prop
  | .resting => False
  | .attempting prompt => prompt.continues ≠ none
  | .deliberating => True

end Phase

namespace AgentLog

variable [Host]

/-- What an agent does next, and to its log. -/
inductive Attends (writer : Writer) : Phase → AgentLog → Phase → AgentLog → Prop
  /-- An arrival is admitted as a prompt that continues none. -/
  | takes {log : AgentLog} (text : String) (voice : Voice) :
    Attends writer .resting log (.attempting ⟨text, voice, none⟩) log
  | runs {phase : Phase} {log log' : AgentLog} {op : Operation} {out : Outcome} (may : phase.Runs op)
      (run : op.run writer log = (out, log')) (alive : ∀ message, out ≠ .panicked message) :
    Attends writer phase log (phase.after out) log'
  /-- A nudge continues the current prompt, in the exchange that committed one. -/
  | nudges {log : AgentLog} {id : ℕ} (text : String) (current : log.context.currentPrompt = some id) :
    Attends writer .deliberating log (.attempting ⟨text, .harness, some id⟩) log
  | ends {log : AgentLog} : Attends writer .deliberating log .resting log
  | reopens {phase : Phase} {log log' : AgentLog} {system : String} {out : Outcome}
      (run : AgentLog.reopen writer log.id log.written system = .ok (out, log'))
      (alive : ∀ message, out ≠ .panicked message) : Attends writer phase log .resting log'

theorem Attends.commits {writer : Writer} {phase : Phase} {log : AgentLog} {op : Operation} (may : phase.Runs op)
    (commits : (op.run writer log).1 = .committed) :
    Attends writer phase log (phase.after .committed) (op.run writer log).2 :=
  .runs may (commits ▸ Prod.mk.eta.symm) (by simp)

/-- The logs of an agent, opened with any link that its judge admits. -/
inductive Attended (writer : Writer) : Phase → AgentLog → Prop
  | created {id : AgentId} {inherited : Option Inherited} {system : String} {log : AgentLog}
      (opened : AgentLog.create writer id inherited system = (.committed, log)) : Attended writer .resting log
  | step {phase phase' : Phase} {log log' : AgentLog} (before : Attended writer phase log)
      (next : Attends writer phase log phase' log') : Attended writer phase' log'

end AgentLog

end Ral.Session
