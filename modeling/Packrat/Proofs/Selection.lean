import Mathlib.Data.List.Sort
import Packrat.Lex.Pattern
import Packrat.Proofs.CursorRuns
import Packrat.Proofs.Rounds

/-! # Which rule decides a round

    Rules are told apart by their number in the list they were declared in, and a
    round is described in these terms: which number wins, which numbers were tried
    before it and what each rule remembers afterwards.  The order in which the rules
    are tried is sorted once with the numbers attached (`inOrder`), so that equal
    rules stay distinct.

    That every rule is tried from where the round began is said with a cursor for
    each of them (`roundApart`).  In a round there is but one cursor for all.  It is
    taken back after every rule that fails, and that makes it the same round as long
    as the rules that fail leave the text under the cursor alone
    (`round_eq_roundApart`). -/

namespace Packrat

variable {ρ κ : Type}

namespace Rule

/-- The rule has nothing to offer at `c`: it declines, or it is tried from there in vain. -/
def Fails (r : Rule ρ κ) (c : Cursor) : Prop :=
  r.declines c.peek = true ∨ (r.tryMatch r.memory c).1 = none

/-- The rule after a try from `c`, with what it remembers of that. -/
def after (r : Rule ρ κ) (c : Cursor) : Rule ρ κ :=
  { r with memory := (r.tryMatch r.memory c).2.1 }

/-- The rule after its turn at `c`: it has been tried, unless it declined. -/
def tried (r : Rule ρ κ) (c : Cursor) : Rule ρ κ :=
  if r.declines c.peek then r else r.after c

/-- Wherever the rule leaves the cursor, it is in the text where it was. -/
def KeepsText (r : Rule ρ κ) : Prop :=
  ∀ memory c, (r.tryMatch memory c).2.2.source = c.source

/-- When the rule fails at `c`, taking the cursor back undoes all that it did to the cursor. -/
def Undone (r : Rule ρ κ) (c : Cursor) : Prop :=
  r.declines c.peek = false → (r.tryMatch r.memory c).1 = none →
    (r.tryMatch r.memory c).2.2.restore c.checkpoint = c

/-- In one text a cursor is known by its mark. -/
theorem KeepsText.undone {source : SourceText} {r : Rule ρ κ} (h : r.KeepsText) {c : Cursor}
    (hc : c.Placed source) : r.Undone c := by
  intro _ _
  exact hc.restore_checkpoint ((h r.memory c).trans hc.source_eq)

/-- The rule without what it remembers. -/
def code (r : Rule ρ κ) :
    Int × (ρ → Option Char → Option Bool) × (ρ → Cursor → Option (Lexeme (Token κ)) × ρ × Cursor) :=
  (r.priority, r.quickCheck, r.tryMatch)

/-- A turn does not change how a rule works. -/
@[simp] theorem code_tried (r : Rule ρ κ) (c : Cursor) : (r.tried c).code = r.code := by
  rw [tried]
  split
  · rfl
  · rfl

/-- Nor when it is tried. -/
theorem priority_tried (r : Rule ρ κ) (c : Cursor) : (r.tried c).priority = r.priority :=
  congrArg Prod.fst (r.code_tried c)

/-- A rule that has declined has learned nothing. -/
theorem tried_of_declines {r : Rule ρ κ} {c : Cursor} (h : r.declines c.peek = true) :
    r.tried c = r := if_pos h

/-- A rule that has been tried remembers what the try has told it. -/
theorem tried_of_match {r : Rule ρ κ} {c c' : Cursor} {found : Option (Lexeme (Token κ))}
    {memory : ρ} (h : r.declines c.peek = false)
    (hmatch : r.tryMatch r.memory c = (found, memory, c')) : r.tried c = { r with memory } := by
  rw [tried, h, if_neg Bool.false_ne_true, after, hmatch]

/-- A try that fails hands back the cursor. -/
theorem attempt_of_none {r : Rule ρ κ} {c : Cursor} (h : (r.tryMatch r.memory c).1 = none) :
    r.attempt c =
      (none, (r.tryMatch r.memory c).2.2.restore c.checkpoint, r.after c) := by
  have hattempt : r.attempt c = ((r.tryMatch r.memory c).1,
      if (r.tryMatch r.memory c).1.isSome then (r.tryMatch r.memory c).2.2
        else (r.tryMatch r.memory c).2.2.restore c.checkpoint, r.after c) := rfl
  rw [hattempt, h]
  rfl

/-- A try that matches leaves the cursor where it went. -/
theorem attempt_of_match {r : Rule ρ κ} {c c' : Cursor} {lexeme : Lexeme (Token κ)} {memory : ρ}
    (h : r.tryMatch r.memory c = (some lexeme, memory, c')) :
    r.attempt c = (some lexeme, c', { r with memory }) := by
  rw [attempt, h]
  rfl

end Rule

namespace Lexer

/-! ## The order of trying -/

/-- For rules with the numbers they were declared under: the one is tried before the other. -/
def Precedes (a b : Rule ρ κ × Nat) : Prop :=
  b.1.priority < a.1.priority ∨ b.1.priority = a.1.priority ∧ a.2 < b.2

instance (a b : Rule ρ κ × Nat) : Decidable (Precedes a b) :=
  inferInstanceAs (Decidable (_ ∨ _ ∧ _))

/-- No two rules are each tried before the other. -/
theorem not_precedes_of_precedes {a b : Rule ρ κ × Nat} (h : Precedes a b) : ¬Precedes b a := by
  rw [Precedes] at h ⊢
  omega

/-- Not of lower priority. -/
def AtLeast (a b : Rule ρ κ) : Prop := b.priority ≤ a.priority

instance (a b : Rule ρ κ) : Decidable (AtLeast a b) := inferInstanceAs (Decidable (_ ≤ _))

/-- The rules in the order in which they are tried, each with the number it was declared under. -/
def inOrder (rules : List (Rule ρ κ)) : List (Rule ρ κ × Nat) :=
  rules.zipIdx.insertionSort fun a b => AtLeast a.1 b.1

/-- The insertion of a rule is that of the library, for this order. -/
theorem insertRule_eq (r : Rule ρ κ) (rs : List (Rule ρ κ)) :
    insertRule r rs = rs.orderedInsert AtLeast r := by
  induction rs with
  | nil => rfl
  | cons s rs ih =>
      rw [insertRule, List.orderedInsert_cons, ih]
      rfl

/-- So the order of trying is a stable sort. -/
theorem byPriority_eq (rules : List (Rule ρ κ)) :
    byPriority rules = rules.insertionSort AtLeast := by
  induction rules with
  | nil => rfl
  | cons r rs ih => rw [byPriority, List.insertionSort_cons, insertRule_eq, ih]

/-- A change of the rules that keeps their priorities keeps their order. -/
theorem byPriority_mapIdx (g : Rule ρ κ × Nat → Rule ρ κ) (rules : List (Rule ρ κ))
    (hg : ∀ a, (g a).priority = a.1.priority) :
    byPriority (rules.mapIdx fun i r => g (r, i)) = (inOrder rules).map g := by
  rw [byPriority_eq, List.mapIdx_eq_zipIdx_map, inOrder]
  refine (List.map_insertionSort _ AtLeast g rules.zipIdx ?_).symm
  intro a _ b _
  rw [AtLeast, AtLeast, hg, hg]

/-- Without their numbers these are the rules in the order in which they are tried. -/
theorem map_fst_inOrder (rules : List (Rule ρ κ)) :
    (inOrder rules).map Prod.fst = byPriority rules := by
  rw [← byPriority_mapIdx Prod.fst rules fun _ => rfl, List.mapIdx_eq_zipIdx_map]
  exact congrArg byPriority (List.zipIdx_map_fst 0 rules)

/-- The numbers are those of the declaration. -/
theorem mem_inOrder {rules : List (Rule ρ κ)} {r : Rule ρ κ} {i : Nat} :
    (r, i) ∈ inOrder rules ↔ rules[i]? = some r := by
  rw [inOrder, List.mem_insertionSort, List.mem_zipIdx_iff_getElem?]

/-- A rule with the lowest number goes right before the first one that is not of higher priority. -/
theorem pairwise_orderedInsert {a : Rule ρ κ × Nat} {rs : List (Rule ρ κ × Nat)}
    (h : rs.Pairwise Precedes) (ha : ∀ b ∈ rs, a.2 < b.2) :
    (rs.orderedInsert (fun a b => AtLeast a.1 b.1) a).Pairwise Precedes := by
  induction rs with
  | nil => exact List.pairwise_singleton _ _
  | cons b rs ih =>
      obtain ⟨hb, hrs⟩ := List.pairwise_cons.mp h
      rw [List.orderedInsert_cons]
      split
      -- the new rule has the lowest number, so that among equal priorities it comes first
      · next hle =>
          refine List.pairwise_cons.mpr ⟨?_, h⟩
          intro x hx
          have hlow : x.1.priority ≤ b.1.priority := by
            rcases List.mem_cons.mp hx with rfl | hx
            · exact Int.le_refl _
            · rcases hb x hx with hlt | ⟨heq, -⟩ <;> omega
          have hnumber := ha x hx
          have hle : b.1.priority ≤ a.1.priority := hle
          rw [Precedes]
          omega
      · next hlt =>
          refine List.pairwise_cons.mpr ⟨?_, ih hrs fun x hx => ha x (List.mem_cons_of_mem _ hx)⟩
          intro x hx
          rcases (List.mem_orderedInsert _).mp hx with rfl | hx
          · exact Or.inl (Int.not_le.mp hlt)
          · exact hb x hx

/-- Sorted with their numbers, each rule is tried before those behind it. -/
theorem pairwise_inOrder (rules : List (Rule ρ κ)) : (inOrder rules).Pairwise Precedes := by
  rw [inOrder]
  -- the numbers may begin anywhere: behind the head they begin one later
  generalize 0 = n
  induction rules generalizing n with
  | nil => exact .nil
  | cons r rs ih =>
      rw [List.zipIdx_cons, List.insertionSort_cons]
      refine pairwise_orderedInsert (ih (n + 1)) ?_
      intro b hb
      exact (List.mem_zipIdx ((List.mem_insertionSort _).mp hb)).1

/-! ## A cursor for each rule -/

/-- The first of `rules` that matches when each of them gets the cursor `c` for itself, with its
    lexeme and cursor, and the rules with what they remember. -/
def matchApart (c : Cursor) :
    List (Rule ρ κ) → Option (Lexeme (Token κ) × Cursor) × List (Rule ρ κ)
  | [] => (none, [])
  | r :: rs =>
      if r.declines c.peek then ((matchApart c rs).1, r :: (matchApart c rs).2)
      else
        match r.tryMatch r.memory c with
        | (some lexeme, memory, c') => (some (lexeme, c'), { r with memory } :: rs)
        | (none, memory, _) => ((matchApart c rs).1, { r with memory } :: (matchApart c rs).2)

/-- A round in which each rule gets a cursor for itself. -/
def roundApart : Run (Lexer ρ κ) LexError (Lexeme (Token κ)) := fun lx =>
  match matchApart lx.cursor lx.rules with
  | (some (lexeme, c), rules) =>
      if c.offset = lx.cursor.offset then
        (.error (.failed (.noProgress lx.cursor.position)), { lx with rules, cursor := c })
      else (.ok lexeme, { lx with rules, cursor := c })
  | (none, rules) => (.error (.failed (unmatched lx.cursor)), { lx with rules })

/-- A rule that declines leaves the match to the others. -/
theorem matchApart_of_declines {r : Rule ρ κ} {rs : List (Rule ρ κ)} {c : Cursor}
    (h : r.declines c.peek = true) :
    matchApart c (r :: rs) = ((matchApart c rs).1, r :: (matchApart c rs).2) := by
  rw [matchApart, if_pos h]

/-- So does one that is tried in vain, but it remembers that. -/
theorem matchApart_of_miss {r : Rule ρ κ} {rs : List (Rule ρ κ)} {c c' : Cursor} {memory : ρ}
    (h : r.declines c.peek = false) (hmatch : r.tryMatch r.memory c = (none, memory, c')) :
    matchApart c (r :: rs) =
      ((matchApart c rs).1, { r with memory } :: (matchApart c rs).2) := by
  rw [matchApart, h, if_neg Bool.false_ne_true, hmatch]

/-- A match ends the search. -/
theorem matchApart_of_match {r : Rule ρ κ} {c c' : Cursor} {lexeme : Lexeme (Token κ)}
    {memory : ρ} (rs : List (Rule ρ κ)) (h : r.declines c.peek = false)
    (hmatch : r.tryMatch r.memory c = (some lexeme, memory, c')) :
    matchApart c (r :: rs) = (some (lexeme, c'), { r with memory } :: rs) := by
  rw [matchApart, h, if_neg Bool.false_ne_true, hmatch]

/-- The turn of a rule that fails. -/
theorem matchApart_of_fails {r : Rule ρ κ} {c : Cursor} (rs : List (Rule ρ κ)) (h : r.Fails c) :
    matchApart c (r :: rs) = ((matchApart c rs).1, r.tried c :: (matchApart c rs).2) := by
  cases hdeclines : r.declines c.peek with
  | true => rw [matchApart_of_declines hdeclines, Rule.tried_of_declines hdeclines]
  | false =>
      have hnone : (r.tryMatch r.memory c).1 = none :=
        h.resolve_left (by rw [hdeclines]; exact Bool.false_ne_true)
      have hmatch : r.tryMatch r.memory c = (none, (r.tryMatch r.memory c).2) :=
        Prod.ext hnone rfl
      rw [matchApart_of_miss hdeclines hmatch, Rule.tried_of_match hdeclines hmatch]

/-- A turn fails or matches. -/
theorem fails_or_matches (r : Rule ρ κ) (c : Cursor) :
    r.Fails c ∨ r.declines c.peek = false ∧
      ∃ lexeme memory c', r.tryMatch r.memory c = (some lexeme, memory, c') := by
  cases hdeclines : r.declines c.peek with
  | true => exact Or.inl (Or.inl hdeclines)
  | false =>
      cases hmatch : r.tryMatch r.memory c with
      | mk found rest =>
          cases found with
          | none => exact Or.inl (Or.inr (by rw [hmatch]))
          | some lexeme => exact Or.inr ⟨rfl, lexeme, rest.1, rest.2, rfl⟩

/-- The first rule that does not fail decides, and what comes after it is left alone. -/
theorem matchApart_cases (c : Cursor) (rs : List (Rule ρ κ)) :
    (∃ tried w rest lexeme memory c', rs = tried ++ w :: rest ∧ (∀ r ∈ tried, r.Fails c) ∧
      w.declines c.peek = false ∧ w.tryMatch w.memory c = (some lexeme, memory, c') ∧
      matchApart c rs = (some (lexeme, c'), tried.map (·.tried c) ++ w.tried c :: rest)) ∨
    (∀ r ∈ rs, r.Fails c) ∧ matchApart c rs = (none, rs.map (·.tried c)) := by
  induction rs with
  | nil => exact Or.inr ⟨List.forall_mem_nil _, rfl⟩
  | cons r rs ih =>
      -- a failing rule joins those that were tried before the match
      rcases fails_or_matches r c with hfails | ⟨hdeclines, lexeme, memory, c', hmatch⟩
      · rw [matchApart_of_fails rs hfails]
        rcases ih with ⟨tried, w, rest, lexeme, memory, c', rfl, htried, hw, hmatch, hfirst⟩ |
            ⟨hall, hfirst⟩
        · refine Or.inl ⟨r :: tried, w, rest, lexeme, memory, c', rfl, ?_, hw, hmatch, ?_⟩
          · exact List.forall_mem_cons.mpr ⟨hfails, htried⟩
          · rw [hfirst]
            rfl
        · refine Or.inr ⟨List.forall_mem_cons.mpr ⟨hfails, hall⟩, ?_⟩
          rw [hfirst]
          rfl
      · refine Or.inl ⟨[], r, rs, lexeme, memory, c', rfl, List.forall_mem_nil _, hdeclines,
          hmatch, ?_⟩
        rw [matchApart_of_match rs hdeclines hmatch, Rule.tried_of_match hdeclines hmatch]
        rfl

/-! ## A round -/

/-- The rules after a round that number `i` decided: those before it in order, and itself, have had
    their turn at `c`. -/
def afterMatch (rules : List (Rule ρ κ)) (w : Rule ρ κ) (i : Nat) (c : Cursor) : List (Rule ρ κ) :=
  rules.mapIdx fun j r => if Precedes (r, j) (w, i) ∨ j = i then r.tried c else r

/-- Sorted, the rules after a match are those that were tried, the one that matched, and the others
    as they were. -/
theorem byPriority_afterMatch {rules : List (Rule ρ κ)} {before after : List (Rule ρ κ × Nat)}
    {w : Rule ρ κ} {i : Nat} (c : Cursor) (h : inOrder rules = before ++ (w, i) :: after) :
    byPriority (afterMatch rules w i c) =
      (before.map Prod.fst).map (·.tried c) ++ w.tried c :: after.map Prod.fst := by
  have hsorted := pairwise_inOrder rules
  rw [h, List.pairwise_append, List.pairwise_cons] at hsorted
  obtain ⟨-, ⟨hafter, -⟩, hbefore⟩ := hsorted
  rw [afterMatch, byPriority_mapIdx
      (fun a => if Precedes a (w, i) ∨ a.2 = i then a.1.tried c else a.1) rules ?_, h,
    List.map_append, List.map_cons, if_pos (Or.inr rfl), List.map_map]
  · congr 1
    -- what stands before the match was tried, and what stands behind it was not
    · refine List.map_congr_left fun a ha => ?_
      exact if_pos (Or.inl (hbefore a ha _ List.mem_cons_self))
    · congr 1
      refine List.map_congr_left fun a ha => if_neg ?_
      rintro (hearlier | hsame)
      · exact not_precedes_of_precedes (hafter a ha) hearlier
      · have hmem : ∀ b ∈ (w, i) :: after, rules[b.2]? = some b.1 := by
          intro b hb
          rw [← mem_inOrder, h]
          exact List.mem_append_right _ hb
        -- the number belongs to one rule only
        have heq : some a.1 = some w := by
          rw [← hmem a (List.mem_cons_of_mem _ ha), hsame, hmem _ List.mem_cons_self]
        have hself : a = (w, i) := Prod.ext (Option.some.inj heq) hsame
        have hprecedes := hafter a ha
        rw [hself] at hprecedes
        exact not_precedes_of_precedes hprecedes hprecedes
  · intro a
    split
    · exact a.1.priority_tried c
    · rfl

/-- If all rules have had a turn, they are in the same order. -/
theorem byPriority_map_tried (rules : List (Rule ρ κ)) (c : Cursor) :
    byPriority (rules.map (·.tried c)) = (byPriority rules).map (·.tried c) := by
  rw [byPriority_eq, byPriority_eq]
  refine (List.map_insertionSort AtLeast AtLeast (·.tried c) rules ?_).symm
  intro a _ b _
  rw [AtLeast, AtLeast, a.priority_tried, b.priority_tried]

variable (rules : List (Rule ρ κ)) (c : Cursor) (atEnd : Cursor → Bool) (done : Bool)

/-- The two ways in which a round goes. -/
theorem roundApart_cases :
    (∃ i w lexeme memory c', rules[i]? = some w ∧ w.declines c.peek = false ∧
      w.tryMatch w.memory c = (some lexeme, memory, c') ∧
      (∀ j r, rules[j]? = some r → Precedes (r, j) (w, i) → r.Fails c) ∧
      roundApart ⟨byPriority rules, c, atEnd, done⟩ =
        (if c'.offset = c.offset then .error (.failed (.noProgress c.position)) else .ok lexeme,
          ⟨byPriority (afterMatch rules w i c), c', atEnd, done⟩)) ∨
    (∀ r ∈ rules, r.Fails c) ∧
      roundApart ⟨byPriority rules, c, atEnd, done⟩ =
        (.error (.failed (unmatched c)),
          ⟨byPriority (rules.map (·.tried c)), c, atEnd, done⟩) := by
  -- the place of the match among the sorted rules gives its number in the declaration
  rcases matchApart_cases c (byPriority rules) with
    ⟨tried, w, rest, lexeme, memory, c', hsplit, htried, hw, hmatch, hfirst⟩ | ⟨hall, hfirst⟩
  · left
    rw [← map_fst_inOrder] at hsplit
    obtain ⟨before, _, horder, rfl, hrest⟩ := List.map_eq_append_iff.mp hsplit
    obtain ⟨⟨w, i⟩, after, rfl, rfl, rfl⟩ := List.map_eq_cons_iff.mp hrest
    have hmem : (w, i) ∈ inOrder rules := by
      rw [horder]
      exact List.mem_append_right _ List.mem_cons_self
    refine ⟨i, w, lexeme, memory, c', mem_inOrder.mp hmem, hw, hmatch, ?_, ?_⟩
    · intro j r hr hprecedes
      have hsorted := pairwise_inOrder rules
      rw [horder, List.pairwise_append, List.pairwise_cons] at hsorted
      have hr := mem_inOrder.mpr hr
      rw [horder, List.mem_append, List.mem_cons] at hr
      rcases hr with hr | heq | hr
      · exact htried r (List.mem_map_of_mem hr)
      · rw [heq] at hprecedes
        exact absurd hprecedes (not_precedes_of_precedes hprecedes)
      · exact absurd hprecedes (not_precedes_of_precedes (hsorted.2.1.1 _ hr))
    · rw [byPriority_afterMatch c horder, roundApart]
      dsimp only
      rw [hfirst]
      dsimp only
      split
      · rfl
      · rfl
  · right
    refine ⟨fun r hr => hall r ((byPriority_perm rules).mem_iff.mpr hr), ?_⟩
    rw [byPriority_map_tried, roundApart]
    dsimp only
    rw [hfirst]

/-! ## One cursor for all rules -/

/-- What the turns of a round keep: a property `Q` of rules and a property `C` of the cursor that is
    handed from rule to rule. -/
structure Kept (next : Option Char) (C : Cursor → Prop) (Q : Rule ρ κ → Prop) : Prop where
  after : ∀ {r c}, Q r → C c → Q (r.after c)
  back : ∀ {r c}, Q r → C c → r.declines next = false → (r.tryMatch r.memory c).1 = none →
    C ((r.tryMatch r.memory c).2.2.restore c.checkpoint)

/-- What is found when a cursor at the mark `p` is handed from rule to rule: a match, or the cursor
    again, at the same mark. -/
inductive Found (next : Option Char) (C : Cursor → Prop) (Q : Rule ρ κ → Prop) (p : Checkpoint) :
    Option (Lexeme (Token κ)) × Cursor × List (Rule ρ κ) → Prop where
  | hit {w : Rule ρ κ} {d c : Cursor} {lexeme : Lexeme (Token κ)} {memory : ρ}
      {rules : List (Rule ρ κ)} : Q w → C d → d.checkpoint = p → w.declines next = false →
      w.tryMatch w.memory d = (some lexeme, memory, c) → (∀ r ∈ rules, Q r) →
      Found next C Q p (some lexeme, c, rules)
  | none {d : Cursor} {rules : List (Rule ρ κ)} : C d → d.checkpoint = p → (∀ r ∈ rules, Q r) →
      Found next C Q p (none, d, rules)

section Kept

variable {next : Option Char} {C : Cursor → Prop} {Q : Rule ρ κ → Prop}

/-- A rule that has had its turn joins those that are left. -/
theorem Found.cons {p : Checkpoint} {r : Rule ρ κ} (hr : Q r)
    {o : Option (Lexeme (Token κ)) × Cursor × List (Rule ρ κ)} (h : Found next C Q p o) :
    Found next C Q p (o.1, o.2.1, r :: o.2.2) := by
  cases h with
  | hit hw hd hp hasked hmatch hrules =>
      exact .hit hw hd hp hasked hmatch (List.forall_mem_cons.mpr ⟨hr, hrules⟩)
  | none hd hp hrules => exact .none hd hp (List.forall_mem_cons.mpr ⟨hr, hrules⟩)

/-- Wherever a rule leaves the cursor when it fails, the next one gets it at the same mark. -/
theorem firstMatch_found (h : Kept next C Q) {c : Cursor} (hc : C c) {rs : List (Rule ρ κ)}
    (hrs : ∀ r ∈ rs, Q r) : Found next C Q c.checkpoint (firstMatch next c rs) := by
  -- on the rules, each starting from where the failure of the one before it has left the cursor
  induction rs generalizing c with
  | nil => exact .none hc rfl hrs
  | cons r rs ih =>
      obtain ⟨hr, hrest⟩ := List.forall_mem_cons.mp hrs
      cases hdeclines : r.declines next with
      | true =>
          rw [firstMatch_of_declines hdeclines]
          exact (ih hc hrest).cons hr
      | false =>
          rcases hmatch : r.tryMatch r.memory c with ⟨_ | lexeme, memory, c'⟩
          · have hnone : (r.tryMatch r.memory c).1 = none := by rw [hmatch]
            rw [firstMatch_of_miss hdeclines (Rule.attempt_of_none hnone)]
            exact (ih (h.back hr hc hdeclines hnone) hrest).cons (h.after hr hc)
          · rw [firstMatch_of_hit rs hdeclines (Rule.attempt_of_match hmatch)]
            refine .hit hr hc rfl hdeclines hmatch (List.forall_mem_cons.mpr ⟨?_, hrest⟩)
            have hafter := h.after hr hc
            rw [Rule.after, hmatch] at hafter
            exact hafter

/-- A round ends with a match or with a complaint.  A match starts at the mark where the round
    began, and a complaint leaves the cursor there. -/
theorem round_found {lx : Lexer ρ κ} (h : Kept lx.cursor.peek C Q) (hc : C lx.cursor)
    (hrules : ∀ r ∈ lx.rules, Q r) :
    ∃ rules, (∀ r ∈ rules, Q r) ∧
      ((∃ w d lexeme memory c, Q w ∧ C d ∧ d.checkpoint = lx.cursor.checkpoint ∧
          w.declines lx.cursor.peek = false ∧ w.tryMatch w.memory d = (some lexeme, memory, c) ∧
          round lx =
            (if c.offset = lx.cursor.offset then .error (.failed (.noProgress lx.cursor.position))
              else .ok lexeme, { lx with rules, cursor := c })) ∨
        ∃ d, C d ∧ d.checkpoint = lx.cursor.checkpoint ∧
          round lx = (.error (.failed (unmatched lx.cursor)), { lx with rules, cursor := d })) := by
  have hfound := firstMatch_found h hc hrules
  rcases hfirst : firstMatch lx.cursor.peek lx.cursor lx.rules with ⟨found, c, rules⟩
  rw [hfirst] at hfound
  cases hfound with
  | @hit w d _ lexeme memory _ hw hd hp hasked hmatch hkept =>
      refine ⟨rules, hkept, Or.inl ⟨w, d, lexeme, memory, c, hw, hd, hp, hasked, hmatch, ?_⟩⟩
      rw [round, hfirst]
      dsimp only
      split
      · rfl
      · rfl
  | none hd hp hkept =>
      refine ⟨rules, hkept, Or.inr ⟨c, hd, hp, ?_⟩⟩
      rw [round, hfirst]

end Kept

/-- Where failing leaves no trace at the cursor, every rule gets it where the round began. -/
theorem firstMatch_eq_matchApart {c : Cursor} {rs : List (Rule ρ κ)}
    (hundone : ∀ r ∈ rs, r.Undone c) :
    firstMatch c.peek c rs =
      ((matchApart c rs).1.map Prod.fst, ((matchApart c rs).1.map Prod.snd).getD c,
        (matchApart c rs).2) := by
  -- every failure is undone, so that all rules start from one cursor
  induction rs with
  | nil => rfl
  | cons r rs ih =>
      obtain ⟨hr, hrest⟩ := List.forall_mem_cons.mp hundone
      cases hdeclines : r.declines c.peek with
      | true => rw [firstMatch_of_declines hdeclines, matchApart_of_declines hdeclines, ih hrest]
      | false =>
          rcases hmatch : r.tryMatch r.memory c with ⟨_ | lexeme, memory, c'⟩
          · have hnone : (r.tryMatch r.memory c).1 = none := by rw [hmatch]
            rw [firstMatch_of_miss hdeclines (Rule.attempt_of_none hnone), hr hdeclines hnone,
              ih hrest, matchApart_of_miss hdeclines hmatch, Rule.after, hmatch]
          · rw [firstMatch_of_hit rs hdeclines (Rule.attempt_of_match hmatch),
              matchApart_of_match rs hdeclines hmatch]
            rfl

/-- Then the round is the one in which each rule has a cursor for itself. -/
theorem round_eq_roundApart {lx : Lexer ρ κ} (hundone : ∀ r ∈ lx.rules, r.Undone lx.cursor) :
    round lx = roundApart lx := by
  rw [round, roundApart, firstMatch_eq_matchApart hundone]
  rcases matchApart lx.cursor lx.rules with ⟨_ | ⟨lexeme, c⟩, rules⟩
  · rfl
  · rfl

/-! ## Round after round -/

/-- Turns change what rules remember, and nothing else. -/
theorem map_code_firstMatch (next : Option Char) (c : Cursor) (rs : List (Rule ρ κ)) :
    (firstMatch next c rs).2.2.map Rule.code = rs.map Rule.code := by
  induction rs generalizing c with
  | nil => rfl
  | cons r rs ih =>
      cases hdeclines : r.declines next with
      | true => rw [firstMatch_of_declines hdeclines, List.map_cons, List.map_cons, ih]
      | false =>
          rcases hmatch : r.attempt c with ⟨_ | lexeme, c', r'⟩
          · have hcode : r'.code = r.code := by
              rw [show r' = r.after c from congrArg (·.2.2) hmatch.symm]
              rfl
            rw [firstMatch_of_miss hdeclines hmatch, List.map_cons, List.map_cons, ih, hcode]
          · have hcode : r'.code = r.code := by
              rw [show r' = r.after c from congrArg (·.2.2) hmatch.symm]
              rfl
            rw [firstMatch_of_hit rs hdeclines hmatch, List.map_cons, List.map_cons, hcode]

/-- A round changes what rules remember, and nothing else about them. -/
theorem map_code_round (lx : Lexer ρ κ) :
    (round lx).2.rules.map Rule.code = lx.rules.map Rule.code := by
  rw [rules_snd_round, map_code_firstMatch]

/-- The lexers that rounds over `declared` lead to.  Between the rounds the cursor may be moved and
    the sequence of tokens closed. -/
inductive Reached (declared : List (Rule ρ κ)) : Lexer ρ κ → Prop where
  | new (c : Cursor) (atEnd : Cursor → Bool) : Reached declared (new declared c atEnd)
  | round {lx : Lexer ρ κ} : Reached declared lx → Reached declared (round lx).2
  | move {lx : Lexer ρ κ} (c : Cursor) :
      Reached declared lx → Reached declared { lx with cursor := c }
  | close {lx : Lexer ρ κ} : Reached declared lx → Reached declared { lx with done := true }

/-- The rules of every later round are those of the first, but for what they remember. -/
theorem Reached.map_code {declared : List (Rule ρ κ)} {lx : Lexer ρ κ} (h : Reached declared lx) :
    lx.rules.map Rule.code = (byPriority declared).map Rule.code := by
  induction h with
  | new c atEnd => rfl
  | round _ ih => rw [map_code_round, ih]
  | move c _ ih => exact ih
  | close _ ih => exact ih

/-- So they are still in the order in which they are tried. -/
theorem Reached.byPriority_rules {declared : List (Rule ρ κ)} {lx : Lexer ρ κ}
    (h : Reached declared lx) : byPriority lx.rules = lx.rules := by
  have hpriority : ∀ rs : List (Rule ρ κ),
      rs.map Rule.priority = (rs.map Rule.code).map Prod.fst := by
    intro rs
    rw [List.map_map]
    rfl
  have hsorted : (lx.rules.map Rule.priority).Pairwise fun a b => b ≤ a := by
    rw [hpriority, h.map_code, ← hpriority, List.pairwise_map]
    exact byPriority_pairwise declared
  have hrules : lx.rules.Pairwise AtLeast := by
    rw [List.pairwise_map] at hsorted
    exact hsorted
  rw [byPriority_eq, hrules.insertionSort_eq]

/-! ## The rule that decides -/

/-- **A round is decided by the first rule that matches where it began.**  First is the rule of the
    highest priority and, among equals, of the lowest number.  All rules before it failed from the
    same cursor `c`, it is the last that is run, and what it matched is the outcome, unless that
    leaves the offset where it was: then the round has made no progress.  When all rules fail, the
    cursor is `c` and the complaint names the next character, or no progress at the end.  The rules
    that had a turn remember what one try from `c` told them, and the others what they remembered
    before.

    So it is when each rule gets a cursor for itself, and with the one cursor of a round for rules
    that leave the text under it alone.  Later rounds are over the same rules in the same order,
    whatever these have come to remember. -/
theorem round_decided_by_first_match (rules : List (Rule ρ κ)) (c : Cursor)
    (atEnd : Cursor → Bool) (done : Bool) :
    ((∃ i w lexeme memory c', rules[i]? = some w ∧ w.declines c.peek = false ∧
        w.tryMatch w.memory c = (some lexeme, memory, c') ∧
        (∀ j r, rules[j]? = some r → Precedes (r, j) (w, i) → r.Fails c) ∧
        roundApart ⟨byPriority rules, c, atEnd, done⟩ =
          (if c'.offset = c.offset then .error (.failed (.noProgress c.position)) else .ok lexeme,
            ⟨byPriority (afterMatch rules w i c), c', atEnd, done⟩)) ∨
      (∀ r ∈ rules, r.Fails c) ∧
        roundApart ⟨byPriority rules, c, atEnd, done⟩ =
          (.error (.failed (unmatched c)),
            ⟨byPriority (rules.map (·.tried c)), c, atEnd, done⟩)) ∧
    (∀ source, c.Placed source → (∀ r ∈ rules, r.KeepsText) →
      round ⟨byPriority rules, c, atEnd, done⟩ =
        roundApart ⟨byPriority rules, c, atEnd, done⟩) ∧
    ∀ lx, Reached rules lx → byPriority lx.rules = lx.rules ∧
      lx.rules.map Rule.code = (byPriority rules).map Rule.code := by
  refine ⟨roundApart_cases rules c atEnd done, ?_, fun lx h => ⟨h.byPriority_rules, h.map_code⟩⟩
  intro source hc hkeeps
  refine round_eq_roundApart ?_
  intro r hr
  exact (hkeeps r ((byPriority_perm rules).mem_iff.mp hr)).undone hc

/-- A rule that stumbles over two characters and fails does not keep the next one from matching
    where the round began; and the round after that has the two rules in the same order. -/
theorem round_decided_behind_stumble :
    let stumble := (Pattern.mk "s" .stumble 7 .unknown false none).rule
    let word := (Pattern.mk "w" (.run .any 1 none) 0 .unknown false none).rule
    let c := Cursor.ofSource ⟨0, ['a', 'b']⟩
    let o := round ⟨byPriority [word, stumble], c, Cursor.isEof, false⟩
    c.Placed ⟨0, ['a', 'b']⟩ ∧ (∀ r ∈ [word, stumble], r.KeepsText) ∧
      o.1 = .ok (.token ⟨.named "w", ⟨⟨0, ['a', 'b']⟩, 0, 2⟩, .start⟩) ∧
      o.2.rules.map Rule.code = [stumble, word].map Rule.code := by
  intro stumble word c o
  have hplaced : c.Placed ⟨0, ['a', 'b']⟩ := Cursor.placed_ofSource
  have hstumble : stumble.KeepsText := by
    intro memory d
    show d.advance.2.advance.2.source = d.source
    rw [Cursor.source_advance, Cursor.source_advance]
  have hword : word.KeepsText := by
    intro memory d
    have hrun : (d.consumeWhile CharClass.any.accepts).2.source = d.source :=
      Cursor.source_skip _ d
    dsimp only [word, Pattern.rule, Pattern.tryMatch, Pattern.tryBody]
    split
    · rfl
    · split
      · next heq => exact (congrArg (·.2.2.source) heq).symm.trans hrun
      · next heq => exact (congrArg (·.2.2.source) heq).symm.trans hrun
  have hkeeps : ∀ r ∈ [word, stumble], r.KeepsText := by
    simp only [List.mem_cons, List.not_mem_nil, or_false, forall_eq_or_imp, forall_eq]
    exact ⟨hword, hstumble⟩
  obtain ⟨-, hround, hlater⟩ :=
    round_decided_by_first_match [word, stumble] c Cursor.isEof false
  refine ⟨hplaced, hkeeps, ?_, (hlater _ (.round (.new c Cursor.isEof))).2⟩
  rw [show o = _ from hround _ hplaced hkeeps]
  rfl

/-- A rule that matches the empty text matches, and the round fails.  And when a rule that fails has
    put another text under the cursor, the next rule matches in that text, at the offset where the
    round began, and not what it would have matched there. -/
theorem round_of_empty_match :
    (let rule := (Pattern.mk "n" .nothing 0 .unknown false none).rule
      let c := Cursor.ofSource ⟨0, ['a']⟩
      ∃ lexeme memory, rule.declines c.peek = false ∧
        rule.tryMatch rule.memory c = (some lexeme, memory, c) ∧
        (round (new [rule] c Cursor.isEof)).1 ≠ .ok lexeme ∧
        (round (new [rule] c Cursor.isEof)).1 = .error (.failed (.noProgress .start))) ∧
    (let other : SourceText := ⟨1, ['b', 'b']⟩
      let exchange :=
        (Pattern.mk "x" (.borrowed fun _ => (none, .ofSource other)) 1 .unknown false none).rule
      let word := (Pattern.mk "w" (.run .any 1 none) 0 .unknown false none).rule
      let c := Cursor.ofSource ⟨0, ['a']⟩
      exchange.Fails c ∧
        (word.tryMatch word.memory c).1 = some (.token ⟨.named "w", ⟨⟨0, ['a']⟩, 0, 1⟩, .start⟩) ∧
        (round (new [exchange, word] c Cursor.isEof)).1 =
          .ok (.token ⟨.named "w", ⟨other, 0, 2⟩, .start⟩)) := by
  refine ⟨⟨_, _, rfl, rfl, ?_, rfl⟩, Or.inr rfl, rfl, rfl⟩
  exact nofun

end Lexer

end Packrat
