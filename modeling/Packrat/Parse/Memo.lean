import Packrat.Assoc

/-! # The memo table

    For every rule and position in the stream where the rule has succeeded, the
    table records the span of window indices that it consumed.  Each rule has
    entries of its own, keyed by position.  The table counts how many of the
    questions put to it were answered with a span.

    Window indices change their meaning when the window is truncated, so the owner
    drops the entries of the old layout with `dropBefore`. -/

namespace Packrat

/-- A span of window indices, from `start` up to but not including `stop`. -/
structure Span where
  /-- Index of the first token. -/
  start : Nat
  /-- Index behind the last token. -/
  stop : Nat
deriving DecidableEq, Repr

namespace Span

/-- The span from `start` to `stop`, if these are in order. -/
def of? (start stop : Nat) : Option Span :=
  if start ≤ stop then some ⟨start, stop⟩ else none

/-- The number of tokens in the span. -/
def width (s : Span) : Nat := s.stop - s.start

end Span

/-- What is known of where rules have succeeded. -/
structure Memo where
  /-- For each rule the spans by position. -/
  rules : Assoc String (Assoc Nat Span)
  /-- Questions that were answered with a span. -/
  hits : Nat
  /-- Questions that were not. -/
  misses : Nat
deriving DecidableEq, Repr

namespace Memo

/-- Nothing is known. -/
def empty : Memo := ⟨[], 0, 0⟩

/-- The entries of a rule. -/
def entriesOf (rule : String) (m : Memo) : Assoc Nat Span := (m.rules.get? rule).getD []

/-- The span recorded for a rule at a position. -/
def find? (rule : String) (position : Nat) (m : Memo) : Option Span :=
  (m.entriesOf rule).get? position

/-- Asks for the span recorded for a rule at a position, and counts the question. -/
def lookup (rule : String) (position : Nat) (m : Memo) : Option Span × Memo :=
  match m.find? rule position with
  | some span => (some span, { m with hits := m.hits + 1 })
  | none => (none, { m with misses := m.misses + 1 })

/-- Records a span for a rule at a position, in the place of an earlier one. -/
def store (rule : String) (position : Nat) (span : Span) (m : Memo) : Memo :=
  { m with rules := m.rules.put rule ((m.entriesOf rule).put position span) }

/-- The number of spans recorded. -/
def size (m : Memo) : Nat := (m.rules.flatMap Prod.snd).length

/-- Nothing is recorded. -/
def isEmpty (m : Memo) : Bool := m.size == 0

/-- Drops the entries of all rules at positions before `threshold`. -/
def dropBefore (threshold : Nat) (m : Memo) : Memo :=
  { m with rules := m.rules.map fun (rule, entries) =>
      (rule, entries.filter fun (position, _) => decide (threshold ≤ position)) }

/-- Drops the entries of all rules at positions before `threshold` and tells how many there were. -/
def purgeBefore (threshold : Nat) (m : Memo) : Nat × Memo :=
  let dropped := m.rules.flatMap fun (_, entries) =>
    entries.filter fun (position, _) => decide (position < threshold)
  (dropped.length, m.dropBefore threshold)

@[simp] theorem find?_empty (rule : String) (position : Nat) :
    empty.find? rule position = none := rfl

@[simp] theorem find?_store_self (m : Memo) (rule : String) (position : Nat) (span : Span) :
    (m.store rule position span).find? rule position = some span := by
  simp [store, find?, entriesOf]

theorem find?_store_of_ne (m : Memo) {rule rule' : String} {position position' : Nat} (span : Span)
    (h : ¬ (rule = rule' ∧ position = position')) :
    (m.store rule position span).find? rule' position' = m.find? rule' position' := by
  by_cases hrule : rule = rule'
  · have hposition : position ≠ position' := fun heq => h ⟨hrule, heq⟩
    simp [store, find?, entriesOf, hrule, Assoc.get?_put_of_ne hposition]
  · simp [store, find?, entriesOf, Assoc.get?_put_of_ne hrule]

theorem find?_dropBefore (m : Memo) (threshold : Nat) (rule : String) (position : Nat) :
    (m.dropBefore threshold).find? rule position
      = if threshold ≤ position then m.find? rule position else none := by
  have hrules : (m.dropBefore threshold).rules.get? rule
      = (m.rules.get? rule).map fun entries =>
        entries.filter fun (position, _) => decide (threshold ≤ position) :=
    Assoc.get?_map _ _ _
  have hentries : (m.dropBefore threshold).entriesOf rule
      = (m.entriesOf rule).filter fun (position, _) => decide (threshold ≤ position) := by
    rw [entriesOf, hrules, entriesOf]
    cases m.rules.get? rule <;> rfl
  have hkept := Assoc.get?_filter (fun position => decide (threshold ≤ position)) position
    (m.entriesOf rule)
  rw [find?, hentries]
  simpa [find?] using hkept

@[simp] theorem lookup_fst (m : Memo) (rule : String) (position : Nat) :
    (m.lookup rule position).1 = m.find? rule position := by
  rw [lookup]
  split
  · next hfound => exact hfound.symm
  · next hnone => exact hnone.symm

@[simp] theorem find?_lookup (m : Memo) (rule rule' : String) (position position' : Nat) :
    (m.lookup rule position).2.find? rule' position' = m.find? rule' position' := by
  rw [lookup]
  split <;> rfl

@[simp] theorem rules_lookup (m : Memo) (rule : String) (position : Nat) :
    (m.lookup rule position).2.rules = m.rules := by
  rw [lookup]
  split <;> rfl

end Memo

end Packrat
