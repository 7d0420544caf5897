import Packrat.Proofs.ListLang.Derivation
import Packrat.Proofs.Script

/-! # How a rule ends

    A rule that is run from a position of a script ends in one of three ways.  It
    takes a word of its language; or it complains about the first token that no word
    can go on with, naming a kind that one can go on with, without having read any
    further; or the script breaks off while the word is still undecided.  `Outcome`
    says this of one run and `Recognizes` of all runs from a position.

    The property is closed under sequence and decision, so the rules of the grammar
    have it by induction on what is left of the script.  The bound on the fuel grows
    with that number. -/

namespace Packrat.ListLang

variable {σ α β : Type} [TokenStream σ Kind]

/-- Words of the one language followed by words of the other. -/
def Concat (L L' : List Kind → Prop) (w : List Kind) : Prop := ∃ u v, L u ∧ L' v ∧ w = u ++ v

/-- The outcome of a run over a script, for a rule with the language `L` that looks at most `look`
    tokens beyond the word it takes. -/
inductive Outcome (script : Script Kind) (stream : σ) (L : List Kind → Prop) (look : Nat)
    (t : Tape σ Kind) : Except (Halt (ParseError Kind)) α × Tape σ Kind → Prop where
  | accepted {v u m t'} : L u → Spells script.kindAt? t.position u →
      m ≤ t.position + u.length + look →
      Tape.Filled script stream t (t.position + u.length) m t' →
      Outcome script stream L look t (.ok v, t')
  | rejected {w k z token t'} : L (w ++ k :: z) → Spells script.kindAt? t.position w →
      script.answer (t.position + w.length) = .ok token → token.kind ≠ k →
      Tape.Filled script stream t (t.position + w.length) (t.position + w.length + 1) t' →
      Outcome script stream L look t
        (.error (.failed (.mismatch k (.ofToken (t.position + w.length) token))), t')
  | starved {w z e t'} : L (w ++ z) → Spells script.kindAt? t.position w →
      script.length ≤ t.position + w.length → script.ending = .error e →
      Outcome script stream L look t (.error (.failed (.lexical e)), t')

/-- Every run from position `a` of the script ends in one of the three ways. -/
def Recognizes (script : Script Kind) (stream : σ) (m : Reading σ Kind α)
    (L : List Kind → Prop) (look a : Nat) : Prop :=
  ∀ t, t.Over script stream → t.position = a → Outcome script stream L look t (m t)

variable {script : Script Kind} {stream : σ} {L L' : List Kind → Prop} {look look' a : Nat}

namespace Outcome

/-- Either way the parse is settled: it has not run out of fuel and not met a fault. -/
theorem isSettled {t : Tape σ Kind} {o : Except (Halt (ParseError Kind)) α × Tape σ Kind}
    (h : Outcome script stream L look t o) : Packrat.isSettled o.1 = true := by
  cases h with
  | accepted => rfl
  | rejected => rfl
  | starved => rfl

/-- A larger language, and more to look at. -/
theorem mono {t : Tape σ Kind} {o : Except (Halt (ParseError Kind)) α × Tape σ Kind}
    (h : Outcome script stream L look t o) (hL : ∀ u, L u → L' u) (hlook : look ≤ look') :
    Outcome script stream L' look' t o := by
  cases h with
  | accepted hu hs hm hfilled => exact .accepted (hL _ hu) hs (by omega) hfilled
  | rejected hw hs htoken hne hfilled => exact .rejected (hL _ hw) hs htoken hne hfilled
  | starved hw hs hle he => exact .starved (hL _ hw) hs hle he

/-- Tokens that were looked at before the run count for nothing if the run looks at them itself. -/
theorem prefill {t t₁ : Tape σ Kind} {o : Except (Halt (ParseError Kind)) α × Tape σ Kind}
    {l : Nat} (h : Outcome script stream L look t₁ o)
    (hfilled : Tape.Filled script stream t t.position l t₁)
    (haccept : ∀ u, L u → l ≤ t.position + u.length + look)
    (hreject : ∀ w k z token, L (w ++ k :: z) → Spells script.kindAt? t.position w →
      script.answer (t.position + w.length) = .ok token → token.kind ≠ k →
      l ≤ t.position + w.length + 1) :
    Outcome script stream L look t o := by
  have hpos := hfilled.position
  cases h with
  | @accepted v u m t' hu hs hm hf =>
      rw [hpos] at hs hm hf
      exact .accepted hu hs (Nat.max_le.mpr ⟨haccept u hu, hm⟩) (hfilled.trans hf)
  | @rejected w k z token t' hw hs htoken hne hf =>
      rw [hpos] at hs htoken hf ⊢
      have hle := hreject w k z token hw hs htoken hne
      have htrans := hfilled.trans hf
      rw [Nat.max_eq_right hle] at htrans
      exact .rejected hw hs htoken hne htrans
  | starved hw hs hle he =>
      rw [hpos] at hs hle
      exact .starved hw hs hle he

end Outcome

namespace Recognizes

/-- A reading of one language is a reading of every other that has the same words where it begins,
    and it may be allowed to look further. -/
theorem mono {m : Reading σ Kind α} (h : Recognizes script stream m L look a)
    (hL : ∀ u, L u → L' u) (hlook : look ≤ look') : Recognizes script stream m L' look' a :=
  fun t ht hpos => (h t ht hpos).mono hL hlook

/-- What the value is does not matter. -/
theorem bind_pure {m : Reading σ Kind α} {f : α → β} (h : Recognizes script stream m L look a) :
    Recognizes script stream (m >>= fun x => pure (f x)) L look a := by
  intro t ht hpos
  have ho := h t ht hpos
  rcases hr : m t with ⟨r, t'⟩
  rw [hr] at ho
  cases ho with
  | accepted hu hs hm hfilled =>
      rw [Run.bind_of_ok hr]
      exact .accepted hu hs hm hfilled
  | rejected hw hs htoken hne hfilled =>
      rw [Run.bind_of_error hr]
      exact .rejected hw hs htoken hne hfilled
  | starved hw hs hle he =>
      rw [Run.bind_of_error hr]
      exact .starved hw hs hle he

theorem discard {m : Reading σ Kind α} (h : Recognizes script stream m L look a) :
    Recognizes script stream (Functor.discard m : Reading σ Kind PUnit) L look a := h.bind_pure

/-- One after the other.  What the first part looks at beyond its word, the second part has to look
    at, too. -/
theorem bind {m : Reading σ Kind α} {f : α → Reading σ Kind β}
    (hm : Recognizes script stream m L look a)
    (hf : ∀ u, L u → Spells script.kindAt? a u → ∀ x,
      Recognizes script stream (f x) L' look' (a + u.length))
    (hlook : look ≤ 1) (hcover : ∀ v, L' v → look ≤ v.length + look') (hsome : ∃ v, L' v) :
    Recognizes script stream (m >>= f) (Concat L L') look' a := by
  intro t ht hpos
  subst hpos
  have ho := hm t ht rfl
  obtain ⟨y, hy⟩ := hsome
  rcases hr : m t with ⟨r, t₁⟩
  rw [hr] at ho
  cases ho with
  | @accepted x u l _ hu hs hl hfilled =>
      rw [Run.bind_of_ok hr]
      -- the second part starts where the word of the first one ends
      have ho₂ := hf u hu hs x t₁ hfilled.isOver hfilled.position
      rcases hr₂ : f x t₁ with ⟨r₂, t₂⟩
      rw [hr₂] at ho₂
      have hpos₁ := hfilled.position
      cases ho₂ with
      | @accepted x' v l' _ hv hs' hl' hfilled' =>
          rw [hpos₁] at hs' hl' hfilled'
          have hcover' := hcover v hv
          have hend : t.position + u.length + v.length = t.position + (u ++ v).length := by
            rw [List.length_append]
            omega
          have htrans := hfilled.trans hfilled'
          rw [hend] at htrans
          refine .accepted ⟨u, v, hu, hv, rfl⟩ (spells_append.mpr ⟨hs, hs'⟩) ?_ htrans
          rw [← hend]
          omega
      | @rejected w k z token _ hw hs' htoken hne hfilled' =>
          rw [hpos₁] at hs' htoken hfilled' ⊢
          have hend : t.position + u.length + w.length = t.position + (u ++ w).length := by
            rw [List.length_append]
            omega
          have htrans := hfilled.trans hfilled'
          rw [Nat.max_eq_right (by omega), hend] at htrans
          rw [hend] at htoken ⊢
          refine .rejected (z := z) ⟨u, w ++ k :: z, hu, hw, ?_⟩ (spells_append.mpr ⟨hs, hs'⟩)
            htoken hne htrans
          exact List.append_assoc u w (k :: z)
      | @starved w z e _ hw hs' hle he =>
          rw [hpos₁] at hs' hle
          refine .starved (w := u ++ w) (z := z) ⟨u, w ++ z, hu, hw, List.append_assoc u w z⟩
            (spells_append.mpr ⟨hs, hs'⟩) ?_ he
          rw [List.length_append]
          omega
  | @rejected w k z token _ hw hs htoken hne hfilled =>
      -- what the first part lacks is completed by any word of the second language
      rw [Run.bind_of_error hr]
      refine .rejected (z := z ++ y) ⟨w ++ k :: z, y, hw, hy, ?_⟩ hs htoken hne hfilled
      rw [List.append_assoc, List.cons_append]
  | @starved w z e _ hw hs hle he =>
      rw [Run.bind_of_error hr]
      refine .starved (z := z ++ y) ⟨w ++ z, y, hw, hy, ?_⟩ hs hle he
      rw [List.append_assoc]

/-- Answering right away reads the empty word. -/
theorem pure (x : α) : Recognizes script stream (Pure.pure x) (· = []) 0 a := by
  intro t ht hpos
  exact .accepted rfl trivial (Nat.zero_le _) ⟨ht, rfl, rfl, (Nat.max_eq_left (Nat.zero_le _)).symm⟩

/-- One token of a kind. -/
theorem expect (hs : script.SpokenBy stream) (k : Kind) :
    Recognizes script stream (Tape.expect k) (· = [k]) 0 a := by
  intro t ht hpos
  cases hanswer : script.answer t.position with
  | error e =>
      obtain ⟨t', hexpect⟩ := Tape.expect_error hs ht k hanswer
      obtain ⟨hending, hle⟩ := Script.ending_of_answer hanswer
      rw [hexpect]
      exact .starved (w := []) (z := [k]) rfl trivial hle hending
  | ok token =>
      by_cases hk : token.kind = k
      · obtain ⟨t', hexpect, hfilled⟩ := Tape.expect_over hs ht hanswer
        rw [hk] at hexpect
        rw [hexpect]
        refine .accepted rfl ⟨?_, trivial⟩ (Nat.le_refl _) hfilled
        rw [Script.kindAt?_of_answer hanswer, hk]
      · obtain ⟨t', hexpect, hfilled⟩ := Tape.expect_mismatch hs ht hanswer hk
        rw [hexpect]
        exact .rejected (w := []) (z := []) rfl trivial hanswer hk hfilled

/-- A decision by the current token.  The token belongs to what is looked at. -/
theorem decision (hs : script.SpokenBy stream) {f : Kind → Reading σ Kind α}
    (hf : ∀ token, script.answer a = .ok token → Recognizes script stream (f token.kind) L look a)
    (hsome : ∃ v, L v) (hcover : ∀ v, L v → 1 ≤ v.length + look) :
    Recognizes script stream (Tape.peekKind 0 >>= f) L look a := by
  intro t ht hpos
  subst hpos
  cases hanswer : script.answer t.position with
  | error e =>
      obtain ⟨t', hkind⟩ := Tape.peekKind_error hs ht 0 hanswer
      obtain ⟨hending, hle⟩ := Script.ending_of_answer hanswer
      obtain ⟨v, hv⟩ := hsome
      rw [Run.bind_of_error hkind]
      exact .starved (w := []) hv trivial hle hending
  | ok token =>
      obtain ⟨t₁, hkind, hfilled⟩ := Tape.peekKind_over hs ht 0 hanswer
      rw [Run.bind_of_ok hkind]
      refine (hf token hanswer t₁ hfilled.isOver hfilled.position).prefill hfilled ?_ ?_
      · intro u hu
        have hcover' := hcover u hu
        omega
      · intros
        omega

end Recognizes

/-! ## The rules of the grammar -/

section Rules

/-- More fuel does no harm. -/
theorem Recognizes.more_fuel {e : Expr Kind Nonterminal} {n n' : Nat}
    (h : Recognizes script stream (Tape.eval grammar n e) L look a) (hn : n ≤ n') :
    Recognizes script stream (Tape.eval grammar n' e) L look a := by
  intro t ht hpos
  have ho := h t ht hpos
  have hsame : Tape.eval grammar n' e t = Tape.eval grammar n e t :=
    (Tape.eval_rising grammar e).eq_of_le rfl ho.isSettled hn
  rw [hsame]
  exact ho

/-- One behind the other, two expressions read the words of the first with words of the second
    behind them. -/
theorem recognizes_seq {e e' : Expr Kind Nonterminal} {n : Nat}
    (h : Recognizes script stream (Tape.eval grammar n e) L look a)
    (h' : ∀ u, L u → Spells script.kindAt? a u →
      Recognizes script stream (Tape.eval grammar n e') L' look' (a + u.length))
    (hlook : look ≤ 1) (hcover : ∀ v, L' v → look ≤ v.length + look') (hsome : ∃ v, L' v) :
    Recognizes script stream (Tape.eval grammar (n + 1) (.seq e e')) (Concat L L') look' a :=
  h.discard.bind (fun u hu hs _ => (h' u hu hs).discard.bind_pure) hlook hcover hsome

/-- Expecting a kind reads the word that is this kind alone. -/
theorem recognizes_expect (hs : script.SpokenBy stream) (k : Kind) (n : Nat) :
    Recognizes script stream (Tape.eval grammar (n + 1) (.expect k)) (· = [k]) 0 a :=
  (Recognizes.expect hs k).bind_pure

/-- A call reads what the body of its rule reads. -/
theorem recognizes_call {rule : Nonterminal} {n : Nat}
    (h : Recognizes script stream (Tape.eval grammar n (grammar rule)) L look a) :
    Recognizes script stream (Tape.eval grammar (n + 1) (.call rule)) L look a := h

theorem recognizes_memo {name : String} {e : Expr Kind Nonterminal} {n : Nat}
    (h : Recognizes script stream (Tape.eval grammar n e) L look a) :
    Recognizes script stream (Tape.eval grammar (n + 1) (.memo name e)) L look a :=
  h.discard.bind_pure

/-- The next kind decides between the two sides, so that the language is that of the side taken. -/
theorem recognizes_cond (hs : script.SpokenBy stream) {k : Kind} {yes no : Expr Kind Nonterminal}
    {n : Nat}
    (hyes : script.kindAt? a = some k → Recognizes script stream (Tape.eval grammar n yes) L look a)
    (hno : Recognizes script stream (Tape.eval grammar n no) L look a)
    (hsome : ∃ v, L v) (hcover : ∀ v, L v → 1 ≤ v.length + look) :
    Recognizes script stream (Tape.eval grammar (n + 1) (.cond k 0 yes no)) L look a := by
  refine Recognizes.decision hs (fun token htoken => ?_) hsome hcover
  by_cases hk : token.kind = k
  · rw [if_pos hk]
    exact hyes (hk ▸ Script.kindAt?_of_answer htoken)
  · rw [if_neg hk]
    exact hno

/-- A list is recognized from every position with at most `r` tokens before the end of the
    script. -/
def ListsFrom (script : Script Kind) (stream : σ) (r : Nat) : Prop :=
  ∀ a, script.length ≤ a + r →
    Recognizes script stream (Tape.eval grammar (10 * r + 10) (.call .list)) (Derives .list) 0 a

/-- When only the word `x` is possible and the script goes along with a part of it, the token that
    does not fit stands behind that part. -/
theorem length_le_of_mismatch {x y w z : List Kind} {k : Kind} {token : Token Kind}
    (hx : w ++ k :: z = x) (hy : y <+: x) (hspell : Spells script.kindAt? a y)
    (htoken : script.answer (a + w.length) = .ok token) (hne : token.kind ≠ k) :
    y.length ≤ w.length := by
  rcases Nat.lt_or_ge w.length y.length with hlt | hge
  · have hy' : y[w.length]? = some k := by
      rw [List.getElem?_eq_getElem hlt, ← List.prefix_iff_getElem?.mp hy _ hlt, ← hx,
        List.getElem?_append_right (Nat.le_refl _), Nat.sub_self]
      rfl
    have hkind := hspell.getElem? hlt
    rw [Script.kindAt?_of_answer htoken, hy'] at hkind
    exact absurd (Option.some.inj hkind) hne
  · exact hge

/-- A pair is two identifiers and the mark between them. -/
theorem recognizes_pair (hs : script.SpokenBy stream) (n : Nat) :
    Recognizes script stream
      (Tape.eval grammar (n + 3) (.seq (.expect .ident) (.seq (.expect .equals) (.expect .ident))))
      (· = [.ident, .equals, .ident]) 0 a := by
  have hright : ∀ b, Recognizes script stream
      (Tape.eval grammar (n + 2) (.seq (.expect .equals) (.expect .ident)))
      (Concat (· = [.equals]) (· = [.ident])) 0 b := fun b =>
    recognizes_seq (recognizes_expect hs _ _) (fun _ _ _ => recognizes_expect hs _ _)
      (Nat.zero_le _) (fun _ _ => Nat.zero_le _) ⟨_, rfl⟩
  have hpair : Recognizes script stream
      (Tape.eval grammar (n + 3) (.seq (.expect .ident) (.seq (.expect .equals) (.expect .ident))))
      (Concat (· = [.ident]) (Concat (· = [.equals]) (· = [.ident]))) 0 a :=
    recognizes_seq (recognizes_expect hs _ _) (fun _ _ _ => hright _) (Nat.zero_le _)
      (fun _ _ => Nat.zero_le _) ⟨_, _, _, rfl, rfl, rfl⟩
  refine hpair.mono ?_ (Nat.le_refl _)
  rintro _ ⟨_, _, rfl, ⟨_, _, rfl, rfl, rfl⟩, rfl⟩
  rfl

/-- At an identifier the token behind it decides between a pair and an identifier alone. -/
theorem recognizes_ident (hs : script.SpokenBy stream) {n : Nat}
    (hident : script.kindAt? a = some .ident) :
    Recognizes script stream
      (Tape.eval grammar (n + 4) (.cond .equals 1
        (.seq (.expect .ident) (.seq (.expect .equals) (.expect .ident))) (.expect .ident)))
      (Derives .element) 1 a := by
  intro t ht hpos
  subst hpos
  cases hanswer : script.answer (t.position + 1) with
  | error e =>
      obtain ⟨t', hkind⟩ := Tape.peekKind_error hs ht 1 hanswer
      obtain ⟨hending, hle⟩ := Script.ending_of_answer hanswer
      rw [show Tape.eval grammar (n + 4) _ t = _ from Run.bind_of_error hkind]
      exact .starved (w := [.ident]) (z := []) .ident ⟨hident, trivial⟩ hle hending
  | ok token =>
      obtain ⟨t₁, hkind, hfilled⟩ := Tape.peekKind_over hs ht 1 hanswer
      rw [show Tape.eval grammar (n + 4) _ t = _ from Run.bind_of_ok hkind]
      have hone : Spells script.kindAt? t.position [.ident] := ⟨hident, trivial⟩
      by_cases hk : token.kind = .equals
      · rw [if_pos hk]
        have htwo : Spells script.kindAt? t.position [.ident, .equals] :=
          ⟨hident, hk ▸ Script.kindAt?_of_answer hanswer, trivial⟩
        have ho := (recognizes_pair hs n t₁ hfilled.isOver hfilled.position).prefill hfilled ?_ ?_
        · exact ho.mono (fun u hu => hu ▸ .pair) (Nat.zero_le _)
        · rintro u rfl
          exact Nat.le_succ _
        · intro w k z token' hx _ htoken hne
          have hle := length_le_of_mismatch hx ⟨[.ident], rfl⟩ htwo htoken hne
          exact Nat.succ_le_succ (Nat.add_le_add_left (Nat.le_of_succ_le hle) _)
      · rw [if_neg hk]
        have halone : Recognizes script stream (Tape.eval grammar (n + 3) (.expect .ident))
            (· = [.ident]) 1 t.position :=
          (recognizes_expect hs _ _).mono (fun _ hu => hu) (Nat.zero_le _)
        have ho := (halone t₁ hfilled.isOver hfilled.position).prefill hfilled ?_ ?_
        · exact ho.mono (fun u hu => hu ▸ .ident) (Nat.le_refl _)
        · rintro u rfl
          exact Nat.le_refl _
        · intro w k z token' hx _ htoken hne
          have hle := length_le_of_mismatch hx List.prefix_rfl hone htoken hne
          exact Nat.succ_le_succ (Nat.add_le_add_left hle _)

/-- An element is a pair, an identifier or a list, and which it is shows in the next two kinds. -/
theorem recognizes_element (hs : script.SpokenBy stream) {r : Nat}
    (hlist : ListsFrom script stream r) (ha : script.length ≤ a + r) :
    Recognizes script stream (Tape.eval grammar (10 * r + 12) (.call .element)) (Derives .element)
      1 a :=
  recognizes_call (recognizes_cond hs (recognizes_ident hs)
    ((hlist a ha).mono (fun _ hu => .nested hu) (Nat.zero_le 1)) ⟨_, .ident⟩
    (fun _ _ => Nat.le_add_left 1 _))

/-- What may stand behind an element: nothing, or a comma and more elements. -/
def Tail (u : List Kind) : Prop := u = [] ∨ ∃ v, Derives .elements v ∧ u = .comma :: v

theorem check_bind (k : Kind) (f : Bool → Reading σ Kind α) :
    (Tape.check k >>= f) = Tape.peekKind 0 >>= fun k' => f (decide (k' = k)) := by
  rw [Tape.check, bind_assoc]
  simp only [pure_bind]

/-- A loop looks at the token that it stops at. -/
theorem recognizes_loop (hs : script.SpokenBy stream) {k : Kind} {body : Expr Kind Nonterminal}
    {n : Nat} (hnil : L [])
    (hstep : script.kindAt? a = some k → Recognizes script stream
      (discard (Tape.eval grammar n body) >>= fun _ => Tape.eval grammar n (.loop k body)) L 1 a) :
    Recognizes script stream (Tape.eval grammar (n + 1) (.loop k body)) L 1 a := by
  rw [show (Tape.eval grammar (n + 1) (.loop k body) : Reading σ Kind (Value Kind)) = _ from
    check_bind k _]
  refine Recognizes.decision hs (fun token htoken => ?_) ⟨[], hnil⟩ (fun v _ => by omega)
  by_cases hk : token.kind = k
  · rw [decide_eq_true hk, if_pos rfl]
    exact hstep (hk ▸ Script.kindAt?_of_answer htoken)
  · rw [decide_eq_false hk, if_neg Bool.false_ne_true]
    exact (Recognizes.pure _).mono (fun _ hu => hu ▸ hnil) (Nat.zero_le _)

/-- The comma and the element behind it, with what may follow them. -/
theorem tail_of_concat {u : List Kind}
    (h : Concat (Concat (· = [.comma]) (Derives .element)) Tail u) : Tail u := by
  obtain ⟨_, v, ⟨_, w, rfl, hw, rfl⟩, hv, rfl⟩ := h
  rcases hv with rfl | ⟨v', hv', rfl⟩
  · exact Or.inr ⟨w, .last hw, List.append_nil _⟩
  · exact Or.inr ⟨w ++ .comma :: v', .more hw hv', rfl⟩

/-- More elements are read for as long as a comma is next, with a shorter rest behind each of
    them. -/
theorem recognizes_moreElements (hs : script.SpokenBy stream) {r : Nat}
    (hlist : ∀ r' < r, ListsFrom script stream r') (ha : script.length ≤ a + r) :
    Recognizes script stream (Tape.eval grammar (10 * r + 12) moreElements) Tail 1 a := by
  induction r generalizing a with
  | zero =>
      refine recognizes_loop hs (Or.inl rfl) (fun hcomma => ?_)
      -- nothing is left, so there is no comma
      have hlt := Script.lt_of_kindAt? hcomma nofun
      omega
  | succ r ih =>
      refine recognizes_loop hs (Or.inl rfl) (fun _ => ?_)
      have hbody : Recognizes script stream
          (Tape.eval grammar (10 * (r + 1) + 11) (.seq (.expect .comma) (.call .element)))
          (Concat (· = [.comma]) (Derives .element)) 1 a := by
        refine recognizes_seq (recognizes_expect hs _ _) ?_ (Nat.zero_le _)
          (fun _ _ => Nat.zero_le _) ⟨_, .ident⟩
        rintro _ rfl -
        exact (recognizes_element hs (hlist r (Nat.lt_succ_self r))
          (by rw [List.length_singleton]; omega)).more_fuel (by omega)
      have hagain : ∀ u, Concat (· = [.comma]) (Derives .element) u → Recognizes script stream
          (Tape.eval grammar (10 * (r + 1) + 11) moreElements) Tail 1 (a + u.length) := by
        rintro _ ⟨_, w, rfl, -, rfl⟩
        refine (ih (fun r' hr' => hlist r' (Nat.lt_succ_of_lt hr')) ?_).more_fuel (by omega)
        rw [List.length_append, List.length_singleton]
        omega
      have hboth := hbody.discard.bind (fun u hu _ _ => hagain u hu) (Nat.le_refl _)
        (fun _ _ => Nat.le_add_left 1 _) ⟨[], Or.inl rfl⟩
      exact hboth.mono (fun _ => tail_of_concat) (Nat.le_refl _)

/-- The elements of a list are a first one and those behind commas. -/
theorem recognizes_elements (hs : script.SpokenBy stream) {r : Nat}
    (hlist : ∀ r' ≤ r, ListsFrom script stream r') (ha : script.length ≤ a + r) :
    Recognizes script stream (Tape.eval grammar (10 * r + 14) (.call .elements)) (Derives .elements)
      1 a := by
  have hseq : Recognizes script stream (Tape.eval grammar (10 * r + 13)
      (.seq (.call .element) moreElements)) (Concat (Derives .element) Tail) 1 a :=
    recognizes_seq (recognizes_element hs (hlist r (Nat.le_refl r)) ha)
      (fun u _ _ => recognizes_moreElements hs (fun r' hr' => hlist r' (Nat.le_of_lt hr'))
        (by omega))
      (Nat.le_refl _) (fun v _ => by omega) ⟨[], Or.inl rfl⟩
  refine hseq.mono ?_ (Nat.le_refl _)
  rintro _ ⟨u, v, hu, hv, rfl⟩
  rcases hv with rfl | ⟨v', hv', rfl⟩
  · rw [List.append_nil]
    exact .last hu
  · exact .more hu hv'

/-- Lists are recognized from everywhere: what is inside the brackets is shorter. -/
theorem listsFrom (hs : script.SpokenBy stream) (r : Nat) : ListsFrom script stream r := by
  induction r using Nat.strongRecOn with
  | ind r ih =>
      intro a ha
      -- behind the opening bracket something was left, and less is left now
      have hinner : script.kindAt? a = some .lbrack →
          Recognizes script stream (Tape.eval grammar (10 * r + 5) (.call .elements))
            (fun u => u = [] ∨ Derives .elements u) 1 (a + 1) := by
        intro hk
        have hlt := Script.lt_of_kindAt? hk nofun
        obtain ⟨r', rfl⟩ : ∃ r', r = r' + 1 := ⟨r - 1, by omega⟩
        have helements : Recognizes script stream
            (Tape.eval grammar (10 * r' + 14) (.call .elements)) (Derives .elements) 1 (a + 1) :=
          recognizes_elements hs (fun s hs' => ih s (Nat.lt_succ_of_le hs')) (by omega)
        exact (helements.more_fuel (by omega)).mono (fun _ hu => Or.inr hu) (Nat.le_refl _)
      have hbody : script.kindAt? a = some .lbrack → Recognizes script stream
          (Tape.eval grammar (10 * r + 7)
            (.seq (.cond .rbrack 0 .done (.call .elements)) (.expect .rbrack)))
          (Concat (fun u => u = [] ∨ Derives .elements u) (· = [.rbrack])) 0 (a + 1) := by
        intro hk
        have hdone : Recognizes script stream (Tape.eval grammar (10 * r + 5) .done)
            (fun u => u = [] ∨ Derives .elements u) 1 (a + 1) :=
          (Recognizes.pure _).mono (fun _ hu => Or.inl hu) (Nat.zero_le _)
        exact recognizes_seq
          (recognizes_cond hs (fun _ => hdone) (hinner hk) ⟨[], Or.inl rfl⟩
            (fun _ _ => Nat.le_add_left 1 _))
          (fun _ _ _ => recognizes_expect hs _ _) (Nat.le_refl _)
          (fun v hv => hv ▸ Nat.le_refl _) ⟨_, rfl⟩
      have hlist : Recognizes script stream (Tape.eval grammar (10 * r + 8) (.seq (.expect .lbrack)
          (.seq (.cond .rbrack 0 .done (.call .elements)) (.expect .rbrack))))
          (Concat (· = [.lbrack])
            (Concat (fun u => u = [] ∨ Derives .elements u) (· = [.rbrack]))) 0 a := by
        refine recognizes_seq (recognizes_expect hs _ _) ?_ (Nat.zero_le _)
          (fun _ _ => Nat.zero_le _) ⟨_, _, _, Or.inl rfl, rfl, rfl⟩
        rintro _ rfl hspell
        exact hbody hspell.1
      refine recognizes_call (recognizes_memo (hlist.mono ?_ (Nat.le_refl _)))
      rintro _ ⟨_, _, rfl, ⟨u, _, hu, rfl, rfl⟩, rfl⟩
      rcases hu with rfl | hu
      · exact .emptyList
      · exact .list hu

/-- An assignment is a list, the mark, and another list. -/
theorem recognizes_assignment (hs : script.SpokenBy stream) {r : Nat} (hr : script.length ≤ r) :
    Recognizes script stream (Tape.eval grammar (10 * r + 14) (.call .assignment))
      (Derives .assignment) 0 a := by
  have hlist : ∀ b, Recognizes script stream (Tape.eval grammar (10 * r + 10) (.call .list))
      (Derives .list) 0 b :=
    fun b => listsFrom hs r b (Nat.le_trans hr (Nat.le_add_left r b))
  have hright : ∀ b, Recognizes script stream
      (Tape.eval grammar (10 * r + 11) (.seq (.expect .equals) (.call .list)))
      (Concat (· = [.equals]) (Derives .list)) 0 b := fun b =>
    recognizes_seq (recognizes_expect hs _ _) (fun v _ _ => hlist _) (Nat.zero_le _)
      (fun _ _ => Nat.zero_le _) ⟨_, .emptyList⟩
  have hassign : Recognizes script stream (Tape.eval grammar (10 * r + 12)
      (.seq (.call .list) (.seq (.expect .equals) (.call .list))))
      (Concat (Derives .list) (Concat (· = [.equals]) (Derives .list))) 0 a :=
    recognizes_seq ((hlist a).more_fuel (Nat.le_succ _)) (fun u _ _ => hright _) (Nat.zero_le _)
      (fun _ _ => Nat.zero_le _) ⟨_, _, _, rfl, .emptyList, rfl⟩
  refine recognizes_call (recognizes_memo (hassign.mono ?_ (Nat.le_refl _)))
  rintro _ ⟨u, _, hu, ⟨_, v, rfl, hv, rfl⟩, rfl⟩
  exact .assignment hu hv

end Rules

end Packrat.ListLang
