import Mathlib.Data.Finset.Card
import Packrat.Proofs.Layout

/-! # The memo table is one map

    The table keeps the spans of every rule apart, and a rule keeps its place when
    all its entries are dropped.  None of this shows: the table answers as one map
    from pairs of a rule and a position.

    What is to be answered is said without a table, by the operations made so far.
    A span stands when it was stored and no later operation touches its key
    (`Memo.Stands`).  One operation brings in what it stores, takes away what it
    touches and leaves the rest alone (`Memo.find?_run`); a run of operations adds
    this up (`Memo.find?_after`).

    The table counts by rules, the map by keys.  The numbers agree because every
    rule has one place in the table and every position one place in its rule, which
    all operations keep (`Memo.Keyed`). -/

namespace Packrat

/-! ## Keys that come once -/

namespace Assoc

variable {γ δ : Type} [DecidableEq γ] {t : Assoc γ δ}

/-- A new value goes in the place of the old one, so no key is there twice. -/
theorem nodup_put (h : (t.map Prod.fst).Nodup) (k : γ) (v : δ) :
    ((put k v t).map Prod.fst).Nodup := by
  induction t with
  | nil => exact List.nodup_singleton k
  | cons p t ih =>
      obtain ⟨hfresh, hrest⟩ := List.nodup_cons.mp h
      by_cases hp : p.1 = k
      · subst hp
        simpa [put] using h
      · have hput : put k v (p :: t) = p :: put k v t := by simp [put, hp]
        rw [hput, List.map_cons, List.nodup_cons]
        refine ⟨?_, ih hrest⟩
        intro hmem
        obtain ⟨⟨k', v'⟩, hentry, heq⟩ := List.mem_map.mp hmem
        rcases mem_put hentry with ⟨hk, -⟩ | hold
        · exact hp (heq.symm.trans hk)
        · exact hfresh (List.mem_map.mpr ⟨(k', v'), hold, heq⟩)

/-- With one place for each key, the pair that is there is the one that is found. -/
theorem get?_of_mem (h : (t.map Prod.fst).Nodup) {k : γ} {v : δ} (hmem : (k, v) ∈ t) :
    get? k t = some v := by
  induction t with
  | nil => exact nomatch hmem
  | cons p t ih =>
      obtain ⟨hfresh, hrest⟩ := List.nodup_cons.mp h
      rcases List.mem_cons.mp hmem with rfl | htail
      · simp [get?]
      · have hne : p.1 ≠ k := by
          rintro rfl
          exact hfresh (List.mem_map.mpr ⟨_, htail, rfl⟩)
        simpa [get?, hne] using ih hrest htail

end Assoc

namespace Memo

variable {m : Memo} {rule : String} {position : Nat} {span : Span}

/-! ## Operations and their answers -/

/-- What can be asked of a table. -/
inductive Op where
  | lookup (rule : String) (position : Nat)
  | store (rule : String) (position : Nat) (span : Span)
  | purge (threshold : Nat)
deriving DecidableEq, Repr

/-- What comes back. -/
inductive Reply where
  | found (span : Option Span)
  | stored
  | dropped (count : Nat)
deriving DecidableEq, Repr

/-- The operation asks for an entry. -/
def Op.isLookup : Op → Bool
  | .lookup _ _ => true
  | .store _ _ _ | .purge _ => false

/-- A question was answered with a span. -/
def Reply.isHit : Reply → Bool
  | .found (some _) => true
  | .found none | .stored | .dropped _ => false

/-- The answer of an operation, and the table that it leaves. -/
def Op.run : Op → Memo → Reply × Memo
  | .lookup rule position, m => (.found (m.lookup rule position).1, (m.lookup rule position).2)
  | .store rule position span, m => (.stored, m.store rule position span)
  | .purge threshold, m => (.dropped (m.purgeBefore threshold).1, (m.purgeBefore threshold).2)

/-- The table behind some operations, the first of which comes first. -/
def after (m : Memo) (ops : List Op) : Memo := ops.foldl (fun m op => (op.run m).2) m

/-- The answers on the way there. -/
def replies : Memo → List Op → List Reply
  | _, [] => []
  | m, op :: ops => (op.run m).1 :: replies (op.run m).2 ops

@[simp] theorem after_nil (m : Memo) : m.after [] = m := rfl

@[simp] theorem after_cons (m : Memo) (op : Op) (ops : List Op) :
    m.after (op :: ops) = (op.run m).2.after ops := rfl

/-! ## What stands -/

/-- The operation stores a span for the key, or drops what is there. -/
def Op.Touches (rule : String) (position : Nat) : Op → Prop
  | .lookup _ _ => False
  | .store rule' position' _ => rule' = rule ∧ position' = position
  | .purge threshold => position < threshold

/-- The latest store for the key was one of `span`, and the entry was not dropped since. -/
def Stands (ops : List Op) (rule : String) (position : Nat) (span : Span) : Prop :=
  ∃ earlier later, ops = earlier ++ .store rule position span :: later ∧
    ∀ op ∈ later, ¬ op.Touches rule position

/-- Without a store there is no span. -/
theorem not_stands_nil : ¬ Stands [] rule position span := by
  rintro ⟨earlier, later, heq, -⟩
  simp at heq

/-- A span stands because the first operation has stored it and nothing after that has touched it,
    or because of the operations behind the first. -/
theorem stands_cons {op : Op} {ops : List Op} :
    Stands (op :: ops) rule position span ↔
      (op = .store rule position span ∧ ∀ op' ∈ ops, ¬ op'.Touches rule position) ∨
        Stands ops rule position span := by
  constructor
  · rintro ⟨earlier, later, heq, hlater⟩
    cases earlier with
    | nil =>
        obtain ⟨rfl, rfl⟩ := List.cons.inj heq
        exact Or.inl ⟨rfl, hlater⟩
    | cons first earlier =>
        obtain ⟨rfl, rfl⟩ := List.cons.inj heq
        exact Or.inr ⟨earlier, later, rfl, hlater⟩
  · rintro (⟨rfl, hlater⟩ | ⟨earlier, later, rfl, hlater⟩)
    · exact ⟨[], ops, rfl, hlater⟩
    · exact ⟨op :: earlier, later, rfl, hlater⟩

/-- One operation brings in what it stores and leaves alone what it does not touch. -/
theorem find?_run (op : Op) (m : Memo) :
    (op.run m).2.find? rule position = some span ↔
      op = .store rule position span ∨
        ¬ op.Touches rule position ∧ m.find? rule position = some span := by
  cases op with
  | lookup rule' position' => simp [Op.run, Op.Touches]
  | store rule' position' span' =>
      by_cases hkey : rule' = rule ∧ position' = position
      · obtain ⟨rfl, rfl⟩ := hkey
        simp [Op.run, Op.Touches]
      · have hne : Op.store rule' position' span' ≠ .store rule position span := by
          rintro ⟨⟩
          exact hkey ⟨rfl, rfl⟩
        simp [Op.run, Op.Touches, find?_store_of_ne m span' hkey, hkey, hne]
  | purge threshold =>
      show (m.dropBefore threshold).find? rule position = some span ↔ _
      rw [find?_dropBefore]
      simp [Op.Touches]

/-- After a run of operations a key has the span that stands, or the one that it had at the
    beginning and that nothing has touched. -/
theorem find?_after (m : Memo) (ops : List Op) :
    (m.after ops).find? rule position = some span ↔
      Stands ops rule position span ∨
        (∀ op ∈ ops, ¬ op.Touches rule position) ∧ m.find? rule position = some span := by
  induction ops generalizing m with
  | nil => simp [not_stands_nil]
  | cons op ops ih =>
      rw [after_cons, ih, find?_run, stands_cons, List.forall_mem_cons]
      tauto

/-! ## The counters -/

/-- A hit is counted when a question has been answered with a span. -/
theorem hits_run (op : Op) (m : Memo) :
    (op.run m).2.hits = m.hits + if (op.run m).1.isHit then 1 else 0 := by
  cases op with
  | lookup rule position =>
      cases hfind : m.find? rule position with
      | none => simp [Op.run, Memo.lookup, hfind, Reply.isHit]
      | some span => simp [Op.run, Memo.lookup, hfind, Reply.isHit]
  | store rule position span => rfl
  | purge threshold => rfl

/-- And every question is counted once, as a hit or as a miss. -/
theorem hits_add_misses_run (op : Op) (m : Memo) :
    (op.run m).2.hits + (op.run m).2.misses =
      m.hits + m.misses + if op.isLookup then 1 else 0 := by
  cases op with
  | lookup rule position =>
      cases hfind : m.find? rule position with
      | none => simp [Op.run, Memo.lookup, hfind, Op.isLookup, Nat.add_assoc]
      | some span => simp [Op.run, Memo.lookup, hfind, Op.isLookup, Nat.add_right_comm]
  | store rule position span => rfl
  | purge threshold => rfl

/-- Over a run the hits are the replies that have been spans. -/
theorem hits_after (m : Memo) (ops : List Op) :
    (m.after ops).hits = m.hits + (m.replies ops).countP Reply.isHit := by
  induction ops generalizing m with
  | nil => rfl
  | cons op ops ih =>
      rw [after_cons, ih, hits_run, replies, List.countP_cons]
      omega

/-- And hits and misses together are the questions. -/
theorem hits_add_misses_after (m : Memo) (ops : List Op) :
    (m.after ops).hits + (m.after ops).misses =
      m.hits + m.misses + ops.countP Op.isLookup := by
  induction ops generalizing m with
  | nil => rfl
  | cons op ops ih =>
      rw [after_cons, ih, hits_add_misses_run, List.countP_cons]
      omega

/-! ## The keys -/

/-- Every rule has one place in the table, and every position one place in its rule. -/
structure Keyed (m : Memo) : Prop where
  rules : (m.rules.map Prod.fst).Nodup
  positions : ∀ rule entries, (rule, entries) ∈ m.rules → (entries.map Prod.fst).Nodup

namespace Keyed

/-- In an empty table there is no key at all. -/
theorem empty : Memo.empty.Keyed where
  rules := List.nodup_nil
  positions _ _ hmem := nomatch hmem

/-- Under each rule a position stands once. -/
theorem entriesOf (h : m.Keyed) (rule : String) : ((m.entriesOf rule).map Prod.fst).Nodup := by
  rw [Memo.entriesOf]
  cases hrule : m.rules.get? rule with
  | none => exact List.nodup_nil
  | some entries => exact h.positions rule entries (Assoc.mem_of_get? hrule)

/-- A store gives a rule one list of entries, with the position in it once. -/
theorem store (h : m.Keyed) (rule : String) (position : Nat) (span : Span) :
    (m.store rule position span).Keyed where
  rules := Assoc.nodup_put h.rules _ _
  positions := by
    intro rule' entries hmem
    rcases Assoc.mem_put hmem with ⟨-, rfl⟩ | hold
    · exact Assoc.nodup_put (h.entriesOf rule) position span
    · exact h.positions rule' entries hold

/-- Dropping takes entries away and adds none. -/
theorem dropBefore (h : m.Keyed) (threshold : Nat) : (m.dropBefore threshold).Keyed where
  rules := by
    have hsame : (m.dropBefore threshold).rules.map Prod.fst = m.rules.map Prod.fst := by
      simp [Memo.dropBefore, Function.comp_def]
    rw [hsame]
    exact h.rules
  positions := by
    intro rule entries hmem
    obtain ⟨⟨rule₀, entries₀⟩, hold, heq⟩ := List.mem_map.mp hmem
    obtain ⟨rfl, rfl⟩ := Prod.mk.inj heq
    exact (h.positions rule₀ entries₀ hold).sublist (List.filter_sublist.map _)

/-- No operation breaks the order of the table. -/
theorem run (h : m.Keyed) (op : Op) : (op.run m).2.Keyed := by
  cases op with
  | lookup rule position =>
      have hsame : (Op.run (.lookup rule position) m).2.rules = m.rules :=
        rules_lookup m rule position
      exact ⟨hsame ▸ h.rules, hsame ▸ h.positions⟩
  | store rule position span => exact h.store rule position span
  | purge threshold => exact h.dropBefore threshold

/-- Neither does a run of them. -/
theorem after (h : m.Keyed) (ops : List Op) : (m.after ops).Keyed := by
  induction ops generalizing m with
  | nil => exact h
  | cons op ops ih => exact ih (h.run op)

/-- The entry that is found is the only one for its key. -/
theorem find?_eq_some (h : m.Keyed) :
    m.find? rule position = some span ↔ m.Holds rule position span := by
  constructor
  · exact holds_of_find?
  · rintro ⟨entries, hrule, hentry⟩
    rw [find?, Memo.entriesOf, Assoc.get?_of_mem h.rules hrule]
    exact Assoc.get?_of_mem (h.positions rule entries hrule) hentry

end Keyed

/-- The keys of the entries, rule by rule. -/
def keys (m : Memo) : List (String × Nat) :=
  m.rules.flatMap fun (rule, entries) => (entries.map Prod.fst).map fun position => (rule, position)

/-- There are as many keys as entries. -/
theorem length_keys (m : Memo) : m.keys.length = m.size := by
  simp [keys, size, List.length_flatMap]

/-- The keys are those of the entries that are held. -/
theorem mem_keys : (rule, position) ∈ m.keys ↔ ∃ span, m.Holds rule position span := by
  constructor
  · intro hmem
    obtain ⟨⟨rule', entries⟩, hrule, hkey⟩ := List.mem_flatMap.mp hmem
    obtain ⟨position', hposition, heq⟩ := List.mem_map.mp hkey
    obtain ⟨rfl, rfl⟩ := Prod.mk.inj heq
    obtain ⟨⟨position', span⟩, hentry, rfl⟩ := List.mem_map.mp hposition
    exact ⟨span, entries, hrule, hentry⟩
  · rintro ⟨span, entries, hrule, hentry⟩
    exact List.mem_flatMap.mpr ⟨_, hrule, List.mem_map_of_mem (List.mem_map_of_mem hentry)⟩

/-- No key is there twice, neither in the list of a rule nor across the rules. -/
theorem Keyed.nodup_keys (h : m.Keyed) : m.keys.Nodup := by
  rw [keys, List.nodup_flatMap]
  constructor
  · rintro ⟨rule, entries⟩ hmem
    exact (h.positions rule entries hmem).map (Prod.mk_right_injective rule)
  · refine (List.pairwise_map.mp h.rules).imp ?_
    rintro ⟨rule, entries⟩ ⟨rule', entries'⟩ hne key hmem hmem'
    obtain ⟨position, -, rfl⟩ := List.mem_map.mp hmem
    obtain ⟨position', -, heq⟩ := List.mem_map.mp hmem'
    exact hne (congrArg Prod.fst heq).symm

/-- What stays are the keys that are not before the threshold. -/
theorem keys_dropBefore (m : Memo) (threshold : Nat) :
    (m.dropBefore threshold).keys = m.keys.filter fun key => threshold ≤ key.2 := by
  simp [keys, dropBefore, List.filter_flatMap, List.flatMap_map, List.filter_map,
    Function.comp_def]

/-- The answer of a purge counts the keys that go. -/
theorem fst_purgeBefore (m : Memo) (threshold : Nat) :
    (m.purgeBefore threshold).1 = (m.keys.filter fun key => key.2 < threshold).length := by
  simp [keys, purgeBefore, List.filter_flatMap, List.length_flatMap, List.filter_map,
    Function.comp_def]

/-- What is dropped and what is left add up to what was there. -/
theorem size_dropBefore (m : Memo) (threshold : Nat) :
    (m.dropBefore threshold).size + (m.purgeBefore threshold).1 = m.size := by
  have hsplit := List.length_eq_length_filter_add (l := m.keys) fun key => threshold ≤ key.2
  simp only [← decide_not, Nat.not_le] at hsplit
  rw [← length_keys, ← length_keys, keys_dropBefore, fst_purgeBefore, hsplit]

/-- A purge takes away the entries before its threshold, of all rules, and no others. -/
theorem lookup_purgeBefore (m : Memo) (threshold : Nat) (rule : String) (position : Nat) :
    ((m.purgeBefore threshold).2.lookup rule position).1 =
      if position < threshold then none else (m.lookup rule position).1 := by
  show ((m.dropBefore threshold).lookup rule position).1 = _
  rw [lookup_fst, lookup_fst, find?_dropBefore]
  by_cases hlt : position < threshold
  · rw [if_pos hlt, if_neg (Nat.not_le.mpr hlt)]
  · rw [if_neg hlt, if_pos (Nat.not_lt.mp hlt)]

/-- **The table is one map.**  After any operations a question is answered with the span that stands
    for the rule and the position, or with nothing.  The table has as many entries as keys with a
    span that stands, a purge drops those of them that are before its threshold, of all rules and no
    others, and tells how many there were, so that this is what the size falls by.  The two counters
    add up to the number of questions, and the first one counts the questions that were answered
    with a span. -/
theorem answers_as_one_map (ops : List Op) :
    let m := empty.after ops
    (∀ rule position span,
      (m.lookup rule position).1 = some span ↔ Stands ops rule position span) ∧
    (∃ live : Finset (String × Nat),
      (∀ rule position, (rule, position) ∈ live ↔ ∃ span, Stands ops rule position span) ∧
      m.size = live.card ∧
      ∀ threshold,
        (m.purgeBefore threshold).1 = (live.filter fun key => key.2 < threshold).card) ∧
    (∀ threshold,
      (m.purgeBefore threshold).2.size + (m.purgeBefore threshold).1 = m.size ∧
      ∀ rule position, ((m.purgeBefore threshold).2.lookup rule position).1 =
        if position < threshold then none else (m.lookup rule position).1) ∧
    m.hits + m.misses = ops.countP Op.isLookup ∧
    m.hits = (empty.replies ops).countP Reply.isHit := by
  intro m
  have hkeyed : m.Keyed := Keyed.empty.after ops
  -- an empty table adds no entries to those that are standing
  have hstands : ∀ rule position span,
      m.find? rule position = some span ↔ Stands ops rule position span := by
    intro rule position span
    rw [find?_after]
    simp
  -- size and purges are counted over the keys, each of which occurs once
  refine ⟨?_, ⟨m.keys.toFinset, ?_, ?_, ?_⟩, ?_, ?_, ?_⟩
  · intro rule position span
    rw [lookup_fst]
    exact hstands rule position span
  · intro rule position
    simp only [List.mem_toFinset, mem_keys, ← hkeyed.find?_eq_some, hstands]
  · rw [List.toFinset_card_of_nodup hkeyed.nodup_keys, length_keys]
  · intro threshold
    rw [fst_purgeBefore, ← List.toFinset_card_of_nodup (hkeyed.nodup_keys.filter _),
      List.toFinset_filter]
    simp only [decide_eq_true_eq]
  · intro threshold
    exact ⟨size_dropBefore m threshold, lookup_purgeBefore m threshold⟩
  · exact (hits_add_misses_after empty ops).trans (Nat.zero_add _)
  · exact (hits_after empty ops).trans (Nat.zero_add _)

-- A purge drops up to its threshold, in all rules, and a later store is not affected by it.
example : empty.replies [.store "list" 0 ⟨0, 3⟩, .store "list" 4 ⟨4, 6⟩, .store "pair" 3 ⟨3, 7⟩,
    .purge 4, .lookup "list" 0, .lookup "list" 4, .store "list" 0 ⟨0, 2⟩, .lookup "list" 0] =
    [.stored, .stored, .stored, .dropped 2, .found none, .found (some ⟨4, 6⟩), .stored,
      .found (some ⟨0, 2⟩)] := by
  decide

end Memo

end Packrat
