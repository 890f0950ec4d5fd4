import Residual.Automaton.Basic
import Residual.Term.Printer

/-!
This module contains the log: what some operations report about their progress, next to their
result. An entry is data; its wording is fixed by the store that holds the terms it mentions.
-/

namespace Residual

inductive LogLevel where
  | trace
  | debug
  | warn
deriving DecidableEq, Repr

inductive LogEntry where
  | newState (state : StateId) (term : TermId)
  | aborted (term : TermId) (limit : Nat)
  | compiled (term : TermId) (alphabet : Alphabet) (states finals terms : Nat)
  | cleared (derivatives terms : Nat)
  | agreed (pairs : Nat)
  | distinguished (left right : StateId) (pairs : Nat)
  | extended (previous length states : Nat)
deriving DecidableEq

namespace LogLevel

def text : LogLevel → String
  | trace => "TRACE"
  | debug => "DEBUG"
  | warn => "WARN"

end LogLevel

namespace LogEntry

def level : LogEntry → LogLevel
  | newState .. => .trace
  | aborted .. => .warn
  | _ => .debug

def message (s : Store) : LogEntry → String
  | newState state term => "new state " ++ Nat.repr state ++ ": " ++ s.text term
  | aborted term limit =>
    "aborting construction for " ++ term.text ++ ": more than " ++ Nat.repr limit ++ " states"
  | compiled term alphabet states finals terms =>
    "compiled " ++ term.text ++ " over " ++ alphabet.text ++ ": " ++ Nat.repr states ++
      " states, " ++ Nat.repr finals ++ " final, " ++ Nat.repr terms ++ " terms in store"
  | cleared derivatives terms =>
    "clearing " ++ Nat.repr derivatives ++ " cached derivatives (" ++ Nat.repr terms ++
      " terms in store)"
  | agreed pairs => "product walk: " ++ Nat.repr pairs ++ " pairs"
  | distinguished left right pairs =>
    "product walk: distinguishing pair (" ++ Nat.repr left ++ ", " ++ Nat.repr right ++
      ") after " ++ Nat.repr pairs ++ " pairs"
  | extended previous length states =>
    "count table extended from length " ++ Nat.repr previous ++ " to " ++ Nat.repr length ++
      " (" ++ Nat.repr states ++ " states)"

def text (s : Store) (e : LogEntry) : String := e.level.text ++ " " ++ e.message s

end LogEntry

structure Logged (α : Type) where
  value : α
  log : Array LogEntry

namespace Logged

instance : Monad Logged where
  pure x := ⟨x, #[]⟩
  bind x f := let y := f x.value; ⟨y.value, x.log ++ y.log⟩

def tell (e : LogEntry) : Logged Unit := ⟨(), #[e]⟩

section Lemmas

variable {α β : Type}

@[simp]
theorem value_pure (x : α) : (pure x : Logged α).value = x := rfl

@[simp]
theorem log_pure (x : α) : (pure x : Logged α).log = #[] := rfl

@[simp]
theorem value_bind (x : Logged α) (f : α → Logged β) : (x >>= f).value = (f x.value).value := rfl

@[simp]
theorem log_bind (x : Logged α) (f : α → Logged β) :
    (x >>= f).log = x.log ++ (f x.value).log := rfl

end Lemmas

end Logged

end Residual
