import Packrat.Proofs.Intact
import Packrat.Proofs.ListLang.Recognition

/-! # Runs over fresh ground

    What the rules of the list language do when they meet a sequence for the first
    time: they get to its end, every list on the way is asked for once, and its body
    is run and recorded.  A run is described from `a` to `b` and with the number of
    lists that it meets (`Crosses`, `Runs`), and is put together from smaller ones
    as the sequence is.

    The parser must not let go of its window on the way.  It does not as long as it
    speculates, or when more tokens are held than the run takes. -/

namespace Packrat.ListLang

variable {σ : Type} [TokenStream σ Kind] {i : Input σ Kind}

/-- Nothing is recorded for lists that start from `a` on and before `b`. -/
def Fresh (memo : Memo) (a b : Nat) : Prop :=
  ∀ position, a ≤ position → position < b → memo.find? "list" position = none

/-- What a memo table, if one is kept, has noted of a run from `a` to `b` over a number of lists. -/
structure Noted (on : Bool) (a b lists : Nat) (memo memo' : Memo) : Prop where
  hits : memo'.hits = memo.hits
  misses : memo'.misses = memo.misses + on.toNat * lists
  kept : ∀ name position, (name = "list" → position < a ∨ b ≤ position) →
    memo'.find? name position = memo.find? name position

theorem Noted.nothing (on : Bool) (a b : Nat) (memo : Memo) : Noted on a b 0 memo memo :=
  ⟨rfl, rfl, fun _ _ _ => rfl⟩

/-- Notes of one stretch and of the next make up the notes of both together. -/
theorem Noted.trans {on : Bool} {a b c m n : Nat} {memo memo' memo'' : Memo} (hab : a ≤ b)
    (hbc : b ≤ c) (h : Noted on a b m memo memo') (h' : Noted on b c n memo' memo'') :
    Noted on a c (m + n) memo memo'' where
  hits := h'.hits.trans h.hits
  misses := by rw [h'.misses, h.misses, Nat.mul_add, Nat.add_assoc]
  kept := by
    intro name position hout
    rw [h'.kept name position fun hname => (hout hname).imp (by omega) id,
      h.kept name position fun hname => (hout hname).imp id (by omega)]

/-- Notes of a stretch leave fresh what lies behind it. -/
theorem Noted.fresh {on : Bool} {a b c n : Nat} {memo memo' : Memo} (h : Noted on a b n memo memo')
    (hfresh : Fresh memo b c) : Fresh memo' b c := by
  intro position hle hlt
  rw [h.kept _ _ fun _ => Or.inr hle]
  exact hfresh position hle hlt

/-- Where a run from `a` to `b` over a number of lists ends, for a parser with `s` tokens in its
    window. -/
structure Arrives (i : Input σ Kind) (p : Parser σ Kind) (s a b lists s' c : Nat) (memo : Memo) :
    Prop where
  cursor : c = b
  grows : s ≤ s'
  held : b ≤ s'
  size_le : s' ≤ i.script.length + 1
  noted : Noted p.options.memoize a b lists p.memo memo

/-- On a parser that keeps its window and knows nothing about the lists on the way, the computation
    leads from `a` to `b` and runs over a number of lists. -/
structure Crosses {α : Type} (i : Input σ Kind) (m : Parsing σ Kind α) (a b lists : Nat) :
    Prop where
  le : a ≤ b
  gets : ∀ p s, a ≤ s → s ≤ i.script.length + 1 → (p.isSpeculating = true ∨ b < s) →
    (p.options.memoize = true → Fresh p.memo a b) → i.Gets m p s a (Arrives i p s a b lists)

namespace Crosses

variable {α β : Type} {m : Parsing σ Kind α} {f : α → Parsing σ Kind β} {a b c x y : Nat}

theorem pure (v : α) (a : Nat) : Crosses i (Pure.pure v : Parsing σ Kind α) a a 0 := by
  refine ⟨Nat.le_refl a, ?_⟩
  intro p s ha hs _ _
  exact .of_eq rfl ⟨rfl, Nat.le_refl _, ha, hs, .nothing _ _ _ _⟩

theorem outOfFuel (h : a ≤ b) : Crosses i (Run.halt .outOfFuel : Parsing σ Kind α) a b x :=
  ⟨h, fun _ _ _ _ _ _ => .outOfFuel⟩

/-- Crossings follow each other, and the lists they enter add up. -/
theorem bind (h : Crosses i m a b x) (hbc : b ≤ c) (h' : ∀ v, Crosses i (f v) b c y) :
    Crosses i (m >>= f) a c (x + y) := by
  have hab := h.le
  refine ⟨Nat.le_trans hab hbc, ?_⟩
  intro p s ha hs hkept hfresh
  refine (h.gets p s ha hs (hkept.imp_right (by omega)) ?_).bind ?_
  · exact fun hon position hle hlt => hfresh hon position hle (by omega)
  · rintro v s' _ memo ⟨rfl, hss, hb, hs', hnoted⟩
    refine ((h' v).gets { p with memo } s' hb hs' (hkept.imp_right (by omega)) ?_).mono ?_
    · exact fun hon => hnoted.fresh fun position hle hlt => hfresh hon position (by omega) hlt
    · rintro s'' _ memo' ⟨rfl, hss', hc, hs'', hnoted'⟩
      exact ⟨rfl, Nat.le_trans hss hss', hc, hs'', hnoted.trans hab hbc hnoted'⟩

theorem discard (h : Crosses i m a b x) :
    Crosses i (Functor.discard m : Parsing σ Kind PUnit) a b x :=
  ⟨h.le, fun p s ha hs hkept hfresh => (h.gets p s ha hs hkept hfresh).discard⟩

/-- Looking ahead costs nothing. -/
theorem look {v : α} {seen : Nat} (hseen : seen ≤ i.script.length + 1)
    (hm : ∀ p s, s ≤ i.script.length + 1 → m (i.seat p s a) = (.ok v, i.seat p (max s seen) a))
    (h : Crosses i (f v) a b x) : Crosses i (m >>= f) a b x := by
  refine ⟨h.le, ?_⟩
  intro p s ha hs hkept hfresh
  refine .of_step (hm p s hs) ?_
  refine (h.gets p _ (by omega) (by omega) (hkept.imp_right (by omega)) hfresh).mono ?_
  intro s' c memo harrives
  exact { harrives with grows := Nat.le_trans (Nat.le_max_left _ _) harrives.grows }

/-- Where its kind is the one expected, a token is crossed and no list entered. -/
theorem expect {k : Kind} (hk : i.script.kindAt? a = some k) (hne : k ≠ .eof) :
    Crosses i (Parser.expect k) a (a + 1) 0 := by
  have hlt : a < i.script.length := Script.lt_of_kindAt? hk hne
  refine ⟨Nat.le_succ a, ?_⟩
  intro p s ha hs hkept _
  refine .of_eq (Input.expect_seat hs (Nat.le_of_lt hlt) hk hkept) ?_
  exact ⟨rfl, Nat.le_max_left _ _, Nat.le_max_right _ _, by omega, .nothing _ _ _ _⟩

end Crosses

/-- An expression of the grammar leads there, however much fuel it is given. -/
def Runs (i : Input σ Kind) (e : Expr Kind Nonterminal) (a b lists : Nat) : Prop :=
  a ≤ b ∧ ∀ fuel, Crosses i (Expr.eval grammar fuel e) a b lists

namespace Runs

variable {e e' yes no : Expr Kind Nonterminal} {a b c x y : Nat} {k k' : Kind}

/-- Without fuel there is nothing to show. -/
theorem of_succ (hle : a ≤ b)
    (h : ∀ fuel, Crosses i (Expr.eval grammar (fuel + 1) e) a b x) : Runs i e a b x := by
  refine ⟨hle, fun fuel => ?_⟩
  cases fuel with
  | zero => exact .outOfFuel hle
  | succ fuel => exact h fuel

theorem done (a : Nat) : Runs i .done a a 0 := of_succ (Nat.le_refl a) fun _ => .pure _ a

/-- An expected kind that is there takes the parse one token on. -/
theorem expect (hk : i.script.kindAt? a = some k) (hne : k ≠ .eof) :
    Runs i (.expect k) a (a + 1) 0 :=
  of_succ (Nat.le_succ a) fun _ =>
    (Crosses.expect hk hne).bind (Nat.le_refl _) fun _ => .pure _ (a + 1)

theorem call {rule : Nonterminal} (h : Runs i (grammar rule) a b x) : Runs i (.call rule) a b x :=
  of_succ h.1 h.2

/-- One behind the other, two expressions run over both stretches. -/
theorem seq (h : Runs i e a b x) (h' : Runs i e' b c y) : Runs i (.seq e e') a c (x + y) :=
  of_succ (Nat.le_trans h.1 h'.1) fun fuel =>
    (h.2 fuel).discard.bind h'.1 fun _ =>
      (h'.2 fuel).discard.bind (Nat.le_refl c) fun _ => .pure _ c

/-- With the kind there, the first side runs. -/
theorem cond_yes {depth : Nat} (hdepth : depth ≤ 1) (hle : a + depth ≤ i.script.length)
    (hk : i.script.kindAt? (a + depth) = some k) (h : Runs i yes a b x) :
    Runs i (.cond k depth yes no) a b x := by
  refine of_succ h.1 fun fuel => .look (Nat.succ_le_succ hle) (v := k) ?_ ?_
  · intro p s hs
    exact Input.peekKind_seat hs (by simp only [wordLimit]; omega) hle hk
  · rw [if_pos rfl]
    exact h.2 fuel

/-- With another kind there, the second one does. -/
theorem cond_no {depth : Nat} (hdepth : depth ≤ 1) (hle : a + depth ≤ i.script.length)
    (hk : i.script.kindAt? (a + depth) = some k') (hne : k' ≠ k) (h : Runs i no a b x) :
    Runs i (.cond k depth yes no) a b x := by
  refine of_succ h.1 fun fuel => .look (Nat.succ_le_succ hle) (v := k') ?_ ?_
  · intro p s hs
    exact Input.peekKind_seat hs (by simp only [wordLimit]; omega) hle hk
  · rw [if_neg hne]
    exact h.2 fuel

/-- A loop stops where its kind is not the next. -/
theorem loop_stop (hle : a ≤ i.script.length) (hk : i.script.kindAt? a = some k') (hne : k' ≠ k) :
    Runs i (.loop k e) a a 0 := by
  refine of_succ (Nat.le_refl a) fun fuel =>
    .look (Nat.succ_le_succ hle) (v := decide (k' = k)) ?_ ?_
  · intro p s hs
    exact Input.check_seat hs hle hk k
  · rw [decide_eq_false hne, if_neg Bool.false_ne_true]
    exact .pure _ a

/-- Where it is, the loop runs once more. -/
theorem loop_again (hle : a ≤ i.script.length) (hk : i.script.kindAt? a = some k)
    (h : Runs i e a b x) (h' : Runs i (.loop k e) b c y) : Runs i (.loop k e) a c (x + y) := by
  refine of_succ (Nat.le_trans h.1 h'.1) fun fuel =>
    .look (Nat.succ_le_succ hle) (v := decide (k = k)) ?_ ?_
  · intro p s hs
    exact Input.check_seat hs hle hk k
  · rw [decide_eq_true rfl, if_pos rfl]
    exact (h.2 fuel).discard.bind h'.1 fun _ => h'.2 fuel

end Runs

/-! ## Lists and assignments -/

/-- What stands in a list, with its brackets. -/
abbrev listBody : Expr Kind Nonterminal :=
  .seq (.expect .lbrack) (.seq (.cond .rbrack 0 .done (.call .elements)) (.expect .rbrack))

/-- The sides of an assignment. -/
abbrev assignmentBody : Expr Kind Nonterminal :=
  .seq (.call .list) (.seq (.expect .equals) (.call .list))

/-- A memoized rule is its memo, two steps of fuel later. -/
theorem gets_of_memoize {rule : Nonterminal} {name : String} {body : Expr Kind Nonterminal}
    {p : Parser σ Kind} {s c : Nat} {P : Nat → Nat → Memo → Prop}
    (hrule : grammar rule = .memo name body)
    (h : ∀ fuel, i.Gets (Parser.memoize name (discard (Expr.eval grammar fuel body))) p s c P)
    (fuel : Nat) : i.Gets (Expr.eval grammar fuel (.call rule)) p s c P := by
  match fuel with
  | 0 => exact .outOfFuel
  | 1 => exact .outOfFuel
  | fuel + 2 =>
      show i.Gets (Expr.eval grammar (fuel + 1) (grammar rule)) p s c P
      rw [hrule]
      exact (h fuel).bind fun _ _ _ _ hp => .of_eq rfl hp

/-- Without a memo table no list is counted. -/
theorem Noted.of_off {a b x y : Nat} {memo memo' : Memo} (h : Noted false a b x memo memo') :
    Noted false a b y memo memo' :=
  ⟨h.hits, h.misses.trans (by simp), h.kept⟩

/-- One more list, from the first token on. -/
theorem Noted.store {a b x : Nat} {memo memo' : Memo} (hlt : a < b)
    (h : Noted true a b x { memo with misses := memo.misses + 1 } memo') (span : Span) :
    Noted true a b (x + 1) memo (memo'.store "list" a span) where
  hits := h.hits
  misses := h.misses.trans (by simp; omega)
  kept := by
    intro name position hout
    have hne : ¬ ("list" = name ∧ a = position) := by
      rintro ⟨rfl, rfl⟩
      have := hout rfl
      omega
    rw [Memo.find?_store_of_ne memo' span hne]
    exact h.kept name position hout

section Lists

variable {a b x : Nat} {p : Parser σ Kind} {s : Nat}

/-- A list that is not known yet is run over, and then it is known. -/
theorem first_list (hlt : a < b) (h : Runs i listBody a b x) (fuel : Nat) (ha : a ≤ s)
    (hs : s ≤ i.script.length + 1) (hkept : p.isSpeculating = true ∨ b < s)
    (hfresh : p.options.memoize = true → Fresh p.memo a b) :
    i.Gets (Expr.eval grammar fuel (.call .list)) p s a fun s' c memo =>
      Arrives i p s a b (x + 1) s' c memo ∧
        (p.options.memoize = true → memo.find? "list" a = some ⟨a, b⟩) := by
  refine gets_of_memoize rfl (fun fuel => ?_) fuel
  -- without a table the body is run; with one it is run as well, since nothing is noted here yet
  cases hon : p.options.memoize with
  | false =>
      refine .memoize_off hon (((h.2 fuel).gets p s ha hs hkept hfresh).discard.mono ?_)
      rintro s' c memo ⟨rfl, hss, hb, hs', hnoted⟩
      rw [hon] at hnoted
      refine ⟨⟨rfl, hss, hb, hs', ?_⟩, nofun⟩
      rw [hon]
      exact hnoted.of_off
  | true =>
      have hbody := (h.2 fuel).gets { p with memo := { p.memo with misses := p.memo.misses + 1 } } s
        ha hs hkept hfresh
      have hnew := hfresh hon a (Nat.le_refl a) hlt
      refine (Input.Gets.memoize_miss hon hnew hbody.discard ?_).mono ?_
      · rintro s' c memo ⟨rfl, -⟩
        exact Nat.le_of_lt hlt
      · rintro s' c _ ⟨memo, rfl, rfl, hss, hb, hs', hnoted⟩
        refine ⟨⟨rfl, hss, hb, hs', ?_⟩, fun _ => Memo.find?_store_self _ _ _ _⟩
        rw [show Parser.options _ = p.options from rfl, hon] at hnoted
        rw [hon]
        exact hnoted.store hlt _

/-- So it runs over one list more than its body does. -/
theorem runs_list (hlt : a < b) (h : Runs i listBody a b x) : Runs i (.call .list) a b (x + 1) := by
  refine ⟨h.1, fun fuel => ⟨h.1, ?_⟩⟩
  intro p s ha hs hkept hfresh
  exact (first_list hlt h fuel ha hs hkept hfresh).mono fun _ _ _ hboth => hboth.1

end Lists

/-- No rule derives the empty word. -/
theorem Derives.length_pos {r : Nonterminal} {u : List Kind} (h : Derives r u) : 0 < u.length := by
  obtain ⟨k, v, rfl, -⟩ := h.head
  exact Nat.succ_pos _

/-- A derivable sequence ends before the end of the input. -/
theorem Derives.end_le {r : Nonterminal} {u : List Kind} (h : Derives r u) {a : Nat}
    (hu : Spells i.script.kindAt? a u) : a + u.length ≤ i.script.length := by
  obtain ⟨k, v, rfl, -⟩ := h.head
  have hlast : v.length < (k :: v).length := Nat.lt_succ_self _
  have hkind := (hu.getElem? hlast).trans (List.getElem?_eq_getElem hlast)
  have hne : (k :: v)[v.length] ≠ Kind.eof := by
    intro heq
    exact h.eof_not_mem (heq ▸ List.getElem_mem hlast)
  have hlt : a + v.length < i.script.length := Script.lt_of_kindAt? hkind hne
  rw [List.length_cons]
  omega

/-- What the rules do on a sequence that they derive.  A list is told by its body, and elements are
    kept apart into the first one and the loop over the others. -/
def Passes (i : Input σ Kind) (a : Nat) (u : List Kind) : Nonterminal → Prop
  | .list => ∃ x, u.count .lbrack = x + 1 ∧ Runs i listBody a (a + u.length) x
  | .elements => ∃ b x y, u.count .lbrack = x + y ∧ Runs i (.call .element) a b x ∧
      Runs i moreElements b (a + u.length) y
  | .element => Runs i (.call .element) a (a + u.length) (u.count .lbrack)
  | _ => True

open Runs in
/-- Every opening bracket is the beginning of one list that is run over. -/
theorem Derives.passes {r : Nonterminal} {u : List Kind} (h : Derives r u) {a : Nat}
    (hu : Spells i.script.kindAt? a u) (hnext : r.Stops (i.script.kindAt? (a + u.length))) :
    Passes i a u r := by
  -- on the derivation, so that every rule of the grammar is one case
  induction h generalizing a with
  | ofList => trivial
  | ofAssignment => trivial
  | assignment => trivial
  | emptyList =>
      obtain ⟨hl, hr, -⟩ := hu
      have hlt := Script.lt_of_kindAt? hr nofun
      exact ⟨0, rfl, seq (expect hl nofun)
        (seq (cond_yes (Nat.zero_le 1) (Nat.le_of_lt hlt) hr (done (a + 1))) (expect hr nofun))⟩
  | @list u helements ih =>
      obtain ⟨hl, hrest⟩ := hu
      obtain ⟨hinner, hr, -⟩ := spells_append.mp hrest
      obtain ⟨b, x, y, hcount, hfirst, hmore⟩ := ih hinner ⟨.rbrack, hr, nofun, nofun⟩
      have hend : a + (Kind.lbrack :: (u ++ [Kind.rbrack])).length = a + 1 + u.length + 1 := by
        simp only [List.length_append, List.length_cons, List.length_nil]
        omega
      refine ⟨x + y, by simp [hcount], ?_⟩
      rw [hend, show x + y = 0 + (x + y + 0) by omega]
      refine seq (expect hl nofun) (seq ?_ (expect hr nofun))
      -- elements do not start with a closing bracket
      obtain ⟨k, v, rfl, hk⟩ := helements.head
      have hlt := helements.end_le hinner
      refine cond_no (Nat.zero_le 1) (by omega) hinner.1 ?_ (call (seq hfirst hmore))
      rcases hk with rfl | ⟨rfl, -⟩
      · exact nofun
      · exact nofun
  | @last u helement ih =>
      obtain ⟨k, hk, hne, hne'⟩ := hnext
      exact ⟨_, _, 0, rfl, ih hu ⟨k, hk, hne⟩, loop_stop (helement.end_le hu) hk hne'⟩
  | @more u v helement _ ihu ihv =>
      obtain ⟨hfirst, hcomma, hrest⟩ := spells_append.mp hu
      have hend : a + (u ++ Kind.comma :: v).length = a + u.length + 1 + v.length := by
        simp only [List.length_append, List.length_cons]
        omega
      rw [hend] at hnext
      obtain ⟨b, x, y, hcount, hnextElement, hmore⟩ := ihv hrest hnext
      refine ⟨a + u.length, u.count .lbrack, x + y, by simp [hcount],
        ihu hfirst ⟨.comma, hcomma, nofun⟩, ?_⟩
      rw [hend, show x + y = 0 + x + y by omega]
      have hbody := seq (expect hcomma nofun) hnextElement
      exact loop_again (helement.end_le hfirst) hcomma hbody hmore
  | pair =>
      obtain ⟨h0, h1, h2, -⟩ := hu
      have hlt := Script.lt_of_kindAt? h1 nofun
      exact call (cond_yes (Nat.zero_le 1) (by omega) h0 (cond_yes (Nat.le_refl 1)
        (Nat.le_of_lt hlt) h1 (seq (expect h0 nofun) (seq (expect h1 nofun) (expect h2 nofun)))))
  | ident =>
      obtain ⟨h0, -⟩ := hu
      obtain ⟨k, hk, hne⟩ := hnext
      have hlt := Script.lt_of_kindAt? h0 nofun
      exact call (cond_yes (Nat.zero_le 1) (Nat.le_of_lt hlt) h0
        (cond_no (Nat.le_refl 1) hlt hk hne (expect h0 nofun)))
  | @nested u hlist ih =>
      obtain ⟨x, hcount, hbody⟩ := ih hu trivial
      -- a list does not start with an identifier
      obtain ⟨k, v, rfl, hk | ⟨-, hne⟩⟩ := hlist.head
      · have hle := hlist.end_le hu
        have hlen : (k :: v).length = v.length + 1 := List.length_cons
        rw [Passes, hcount]
        refine call (cond_no (Nat.zero_le 1) (by omega) hu.1 (hk ▸ nofun) ?_)
        exact runs_list (by omega) hbody
      · exact absurd rfl hne

end Packrat.ListLang
