import OpenUH.Foundation.Fallible

/-!
# Double-ended queues

The queue a program has in mind when it puts and takes items at both ends: a
list, of any length.  An implementation refines it when each of its calls
returns what the list operation returns and leaves the two in the same
relation; then whole runs return the same results.
-/

namespace OpenUH.Foundation.Deque

open Foundation.Fallible

universe u v w x

/-- A call at one of the two ends. -/
inductive Call (α : Type u) where
  | putHead (item : α)
  | putTail (item : α)
  | takeHead
  | takeTail
deriving DecidableEq, Repr

/-- What a call returns: a put has a status, a take an item or nothing. -/
inductive Result (α : Type u) where
  | stored
  | taken (item : Option α)
deriving DecidableEq, Repr

variable {α : Type u} {σ : Type v} {ε : Type w} {Label : Type x}

/-- A call on the items, from the head to the tail. -/
def perform (items : List α) : Call α → List α × Result α
  | .putHead item => (item :: items, .stored)
  | .putTail item => (items ++ [item], .stored)
  | .takeHead => (items.tail, .taken items.head?)
  | .takeTail => (items.dropLast, .taken items.getLast?)

/-- The items after a sequence of calls, and the results of the calls. -/
def run (items : List α) : List (Call α) → List α × List (Result α)
  | [] => (items, [])
  | call :: calls =>
      let first := perform items call
      let rest := run first.1 calls
      (rest.1, first.2 :: rest.2)

/-- A run of an implementation, as long as no call fails. -/
def runWith (step : σ → Label → Except ε (σ × Result α)) (state : σ) :
    List Label → Except ε (σ × List (Result α))
  | [] => .ok (state, [])
  | call :: calls =>
      (step state call).bind fun first =>
        (runWith step first.1 calls).map fun rest =>
          (rest.1, first.2 :: rest.2)

/-- A call returns what the call on the items returns, or stops as it may. -/
def Agrees (holds : σ → List α → Prop) (fails : List α → ε → Prop)
    (items : List α) (call : Call α) : Except ε (σ × Result α) → Prop
  | .ok next => holds next.1 (perform items call).1 ∧ next.2 = (perform items call).2
  | .error fault => fails items fault

/-- Each call of an implementation agrees with the call on the items. -/
def Refines (step : σ → Label → Except ε (σ × Result α))
    (meaning : Label → Call α) (holds : σ → List α → Prop) (fails : List α → ε → Prop) : Prop :=
  ∀ state items call, holds state items → Agrees holds fails items (meaning call) (step state call)

namespace Refines

variable {step : σ → Label → Except ε (σ × Result α)} {meaning : Label → Call α}
  {holds : σ → List α → Prop} {fails : List α → ε → Prop}
  {state : σ} {items : List α} {calls : List Label}

/-- A run returns the results of the run on the items. -/
theorem run_returns (refines : Refines step meaning holds fails)
    (held : holds state items) {last : σ × List (Result α)}
    (ran : runWith step state calls = .ok last) :
    holds last.1 (run items (calls.map meaning)).1 ∧
      last.2 = (run items (calls.map meaning)).2 := by
  induction calls generalizing state items last with
  | nil =>
      cases ran
      exact ⟨held, rfl⟩
  | cons call calls ih =>
      obtain ⟨first, stepped, continued⟩ := bind_eq_ok.mp ran
      obtain ⟨rest, ranRest, rfl⟩ := map_eq_ok.mp continued
      have agrees := refines state items call held
      rw [stepped] at agrees
      obtain ⟨heldFirst, same⟩ := agrees
      obtain ⟨heldLast, sameRest⟩ := ih heldFirst ranRest
      exact ⟨heldLast, congrArg₂ _ same sameRest⟩

/-- A run stops only where some call may. -/
theorem run_stops (refines : Refines step meaning holds fails)
    (held : holds state items) {fault : ε} (stopped : runWith step state calls = .error fault) :
    ∃ front, front <+: calls ∧ fails (run items (front.map meaning)).1 fault := by
  induction calls generalizing state items with
  | nil => cases stopped
  | cons call calls ih =>
      have agrees := refines state items call held
      rw [runWith] at stopped
      cases stepped : step state call with
      | error other =>
          rw [stepped] at stopped agrees
          cases stopped
          exact ⟨[], List.nil_prefix, agrees⟩
      | ok first =>
          rw [stepped] at stopped agrees
          cases ran : runWith step first.1 calls with
          | ok rest =>
              rw [Except.bind, ran] at stopped
              cases stopped
          | error other =>
              rw [Except.bind, ran] at stopped
              cases stopped
              obtain ⟨front, isFront, failed⟩ := ih agrees.1 ran
              exact ⟨call :: front, List.prefix_cons_iff.mpr (Or.inr ⟨front, rfl, isFront⟩), failed⟩

end Refines

end OpenUH.Foundation.Deque
