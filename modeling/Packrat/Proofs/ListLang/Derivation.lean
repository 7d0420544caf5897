import Packrat.ListLang.Grammar
import Packrat.Proofs.Replay

/-! # What the list language is

    `Derives` is the grammar as a set of rules about sequences of kinds, without a
    word on how they are recognized.  A sentence is a statement with the end of the
    input behind it; what can be completed to a sentence is viable.

    The second part is completeness: a tape that holds a derivable sequence, with
    something behind it that does not go on with it, is led from the one end of the
    sequence to the other by the rule that derives it.  The rules commit early.  An
    identifier is taken for half of a pair as soon as an equals sign follows, and
    elements go on as long as commas do, so what follows a sequence matters. -/

namespace Packrat.ListLang

/-- The sequence of kinds can be derived from the rule. -/
inductive Derives : Nonterminal → List Kind → Prop where
  | ofList {u} : Derives .list u → Derives .statement u
  | ofAssignment {u} : Derives .assignment u → Derives .statement u
  | assignment {u v} : Derives .list u → Derives .list v → Derives .assignment (u ++ .equals :: v)
  | emptyList : Derives .list [.lbrack, .rbrack]
  | list {u} : Derives .elements u → Derives .list (.lbrack :: (u ++ [.rbrack]))
  | last {u} : Derives .element u → Derives .elements u
  | more {u v} : Derives .element u → Derives .elements v → Derives .elements (u ++ .comma :: v)
  | pair : Derives .element [.ident, .equals, .ident]
  | ident : Derives .element [.ident]
  | nested {u} : Derives .list u → Derives .element u

/-- A statement with the end of the input behind it. -/
def Sentence (w : List Kind) : Prop := ∃ u, Derives .statement u ∧ w = u ++ [.eof]

/-- Something can follow that makes it a sentence. -/
def Viable (w : List Kind) : Prop := ∃ z, Sentence (w ++ z)

/-- Every beginning of a sentence is viable. -/
theorem Sentence.viable_take {w : List Kind} (h : Sentence w) (i : Nat) : Viable (w.take i) :=
  ⟨w.drop i, (List.take_append_drop i w).symm ▸ h⟩

/-- The end of the input is no part of anything. -/
theorem Derives.eof_not_mem {r : Nonterminal} {u : List Kind} (h : Derives r u) :
    Kind.eof ∉ u := by
  induction h with
  | ofList _ ih => exact ih
  | ofAssignment _ ih => exact ih
  | assignment _ _ ihu ihv => simp [ihu, ihv]
  | emptyList => decide
  | list _ ih => simp [ih]
  | last _ ih => exact ih
  | more _ _ ihu ihv => simp [ihu, ihv]
  | pair => decide
  | ident => decide
  | nested _ ih => exact ih

/-- So it stands nowhere in a sentence but at its end. -/
theorem Sentence.eof_not_mem {w z : List Kind} {k : Kind} (h : Sentence (w ++ k :: z)) :
    Kind.eof ∉ w := by
  obtain ⟨u, hu, heq⟩ := h
  intro hmem
  have hw : w <+: u ++ [.eof] := heq ▸ List.prefix_append _ _
  have hle : w.length ≤ u.length := by
    have hlen := congrArg List.length heq
    simp only [List.length_append, List.length_cons, List.length_nil] at hlen
    omega
  have hwu := List.prefix_of_prefix_length_le hw (List.prefix_append _ _) hle
  exact hu.eof_not_mem (hwu.subset hmem)

/-- Everything starts with a bracket, except for what starts with an identifier. -/
theorem Derives.head {r : Nonterminal} {u : List Kind} (h : Derives r u) :
    ∃ k v, u = k :: v ∧ (k = .lbrack ∨ k = .ident ∧ r ≠ .list) := by
  induction h with
  | ofList _ ih =>
      obtain ⟨k, v, rfl, hk | ⟨-, hne⟩⟩ := ih
      · exact ⟨k, v, rfl, Or.inl hk⟩
      · exact absurd rfl hne
  | ofAssignment _ ih =>
      obtain ⟨k, v, rfl, hk | ⟨hk, -⟩⟩ := ih
      · exact ⟨k, v, rfl, Or.inl hk⟩
      · exact ⟨k, v, rfl, Or.inr ⟨hk, nofun⟩⟩
  | assignment _ _ ih _ =>
      obtain ⟨k, v, rfl, hk | ⟨-, hne⟩⟩ := ih
      · exact ⟨k, _, rfl, Or.inl hk⟩
      · exact absurd rfl hne
  | emptyList => exact ⟨_, _, rfl, Or.inl rfl⟩
  | list _ _ => exact ⟨_, _, rfl, Or.inl rfl⟩
  | last _ ih =>
      obtain ⟨k, v, rfl, hk | ⟨hk, -⟩⟩ := ih
      · exact ⟨k, v, rfl, Or.inl hk⟩
      · exact ⟨k, v, rfl, Or.inr ⟨hk, nofun⟩⟩
  | more _ _ ih _ =>
      obtain ⟨k, v, rfl, hk | ⟨hk, -⟩⟩ := ih
      · exact ⟨k, _, rfl, Or.inl hk⟩
      · exact ⟨k, _, rfl, Or.inr ⟨hk, nofun⟩⟩
  | pair => exact ⟨_, _, rfl, Or.inr ⟨rfl, nofun⟩⟩
  | ident => exact ⟨_, _, rfl, Or.inr ⟨rfl, nofun⟩⟩
  | nested _ ih =>
      obtain ⟨k, v, rfl, hk | ⟨-, hne⟩⟩ := ih
      · exact ⟨k, v, rfl, Or.inl hk⟩
      · exact absurd rfl hne

/-! ## Completeness -/

/-- The function shows these kinds from `a` on. -/
def Spells (f : Nat → Option Kind) : Nat → List Kind → Prop
  | _, [] => True
  | a, k :: u => f a = some k ∧ Spells f (a + 1) u

theorem spells_append {f : Nat → Option Kind} {a : Nat} {u v : List Kind} :
    Spells f a (u ++ v) ↔ Spells f a u ∧ Spells f (a + u.length) v := by
  induction u generalizing a with
  | nil => exact ⟨fun h => ⟨trivial, h⟩, fun h => h.2⟩
  | cons k u ih =>
      have hlen : a + (k :: u).length = a + 1 + u.length := by
        rw [List.length_cons]
        omega
      rw [hlen, List.cons_append]
      show (f a = some k ∧ Spells f (a + 1) (u ++ v)) ↔ (f a = some k ∧ _) ∧ _
      rw [ih, and_assoc]

theorem Spells.getElem? {f : Nat → Option Kind} {a : Nat} {u : List Kind} (h : Spells f a u)
    {i : Nat} (hi : i < u.length) : f (a + i) = u[i]? := by
  induction u generalizing a i with
  | nil => exact nomatch hi
  | cons k u ih =>
      cases i with
      | zero => exact h.1
      | succ i =>
          have hrest := ih h.2 (Nat.lt_of_succ_lt_succ hi)
          rw [List.getElem?_cons_succ, ← hrest]
          congr 1
          omega

theorem spells_of_lt {f : Nat → Option Kind} {a : Nat} {u : List Kind}
    (h : ∀ i < u.length, f (a + i) = u[i]?) : Spells f a u := by
  induction u generalizing a with
  | nil => trivial
  | cons k u ih =>
      refine ⟨h 0 (Nat.succ_pos _), ih fun i hi => ?_⟩
      rw [Nat.add_assoc, Nat.add_comm 1 i]
      exact h (i + 1) (Nat.succ_lt_succ hi)

theorem spells_of_getElem? {f : Nat → Option Kind} {a : Nat} {u : List Kind}
    (h : ∀ i, f (a + i) = u[i]?) : Spells f a u :=
  spells_of_lt fun i _ => h i

/-- What may follow a sequence for its rule to stop there. -/
def Nonterminal.Stops : Nonterminal → Option Kind → Prop
  | .statement, next => next = some .eof
  | .elements, next => ∃ k, next = some k ∧ k ≠ .equals ∧ k ≠ .comma
  | .element, next => ∃ k, next = some k ∧ k ≠ .equals
  | .assignment, _ => True
  | .list, _ => True

section Completeness

variable {σ : Type} [TokenStream σ Kind]

/-- The rules by their names. -/
abbrev grammar : Nonterminal → Expr Kind Nonterminal := Nonterminal.body id

/-- The loop behind the first element. -/
abbrev moreElements : Expr Kind Nonterminal :=
  .loop .comma (.seq (.expect .comma) (.call .element))

/-- On this tape the rule leads from `a` to `b`.  Elements are kept apart into the first one and the
    loop over the others, a statement takes the end of the input with it, and inside an assignment
    an equals sign stands behind a list. -/
def Reaches (t : Tape σ Kind) (a b : Nat) : Nonterminal → Prop
  | .statement => t.Known grammar (.call .statement) a (b + 1)
  | .assignment => t.Known grammar (.call .assignment) a b ∧
      ∃ c, t.Known grammar (.call .list) a c ∧ t.kindAt? c = some .equals
  | .elements => ∃ c, t.Known grammar (.call .element) a c ∧
      t.Known grammar moreElements c b
  | r => t.Known grammar (.call r) a b

open Tape Tape.Known in
/-- **Completeness of the rules**: where the tape spells a derivable sequence and the rule may stop
    behind it, the rule gets there. -/
theorem Derives.reaches {r : Nonterminal} {u : List Kind} (h : Derives r u) {t : Tape σ Kind}
    {a : Nat} (hu : Spells t.kindAt? a u) (hnext : r.Stops (t.kindAt? (a + u.length))) :
    Reaches t a (a + u.length) r := by
  induction h generalizing a with
  | ofList hl ih =>
      exact call (choose_first (seq (ih hu trivial) (expect hnext)))
  | ofAssignment _ ih =>
      -- the first alternative gets to the equals sign and finds no end of the input there
      obtain ⟨hassign, c, hlist, hc⟩ := ih hu trivial
      refine call (choose_second (refused_expect hlist hc nofun) ?_)
      exact seq hassign (expect hnext)
  | @assignment u v _ _ ihu ihv =>
      obtain ⟨hl, heq, hr⟩ := spells_append.mp hu
      have hend : a + (u ++ Kind.equals :: v).length = a + u.length + 1 + v.length := by
        simp only [List.length_append, List.length_cons]
        omega
      rw [hend]
      refine ⟨?_, a + u.length, ihu hl trivial, heq⟩
      exact call (memo (seq (ihu hl trivial) (seq (expect heq) (ihv hr trivial))))
  | emptyList =>
      obtain ⟨hl, hr, -⟩ := hu
      exact call (memo (seq (expect hl) (seq (cond_yes hr done) (expect hr))))
  | @list u helements ih =>
      obtain ⟨hl, hrest⟩ := hu
      obtain ⟨hinner, hr, -⟩ := spells_append.mp hrest
      obtain ⟨c, hfirst, hmore⟩ := ih hinner ⟨.rbrack, hr, nofun, nofun⟩
      have hend : a + (Kind.lbrack :: (u ++ [Kind.rbrack])).length = a + 1 + u.length + 1 := by
        simp only [List.length_append, List.length_cons, List.length_nil]
        omega
      rw [hend]
      refine call (memo (seq (expect hl) (seq ?_ (expect hr))))
      -- elements do not start with a closing bracket
      obtain ⟨k, v, rfl, hk⟩ := helements.head
      refine cond_no hinner.1 ?_ (call (seq hfirst hmore))
      rcases hk with rfl | ⟨rfl, -⟩
      · exact nofun
      · exact nofun
  | last _ ih =>
      obtain ⟨k, hk, hne, hne'⟩ := hnext
      exact ⟨_, ih hu ⟨k, hk, hne⟩, loop_stop hk hne'⟩
  | @more u v _ _ ihu ihv =>
      obtain ⟨hfirst, hcomma, hrest⟩ := spells_append.mp hu
      have hend : a + (u ++ Kind.comma :: v).length = a + u.length + 1 + v.length := by
        simp only [List.length_append, List.length_cons]
        omega
      rw [hend] at hnext ⊢
      obtain ⟨c, hnextElement, hmore⟩ := ihv hrest hnext
      refine ⟨a + u.length, ihu hfirst ⟨.comma, hcomma, nofun⟩, ?_⟩
      exact loop_again hcomma (seq (expect hcomma) hnextElement) hmore
  | pair =>
      obtain ⟨h0, h1, h2, -⟩ := hu
      exact call (cond_yes h0 (cond_yes h1 (seq (expect h0) (seq (expect h1) (expect h2)))))
  | ident =>
      obtain ⟨h0, -⟩ := hu
      obtain ⟨k, hk, hne⟩ := hnext
      exact call (cond_yes h0 (cond_no hk hne (expect h0)))
  | nested hlist ih =>
      -- a list does not start with an identifier
      obtain ⟨k, v, rfl, hk | ⟨-, hne⟩⟩ := hlist.head
      · exact call (cond_no hu.1 (hk ▸ nofun) (ih hu trivial))
      · exact absurd rfl hne

end Completeness

end Packrat.ListLang
