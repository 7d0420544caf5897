import Packrat.Proofs.Lookahead

/-! # Spans of the present layout

    The indices of a span are good for the layout of the window that they were
    recorded against.  A body that is remembered may let that layout go while it
    runs; what it has passed over is then not recorded, which is seen from the
    number of tokens that have left.  A body that releases a mark of its caller
    escapes this check: it can go back behind the place where it began, let tokens
    go up to that very place, and have its span recorded although the layout has
    changed.

    Bodies without bare marks never go back.  So under a name that is used only with
    such bodies the table holds spans of the present layout, whatever else a program
    does and remembers under other names (`Reachable.fits`). -/

namespace Packrat

variable {σ κ ν α : Type}

/-! ## Quiet evaluations and the layout -/

/-- Who stays keeps the window, the marks and the spans that are in it. -/
theorem Parser.Stays.forward {p q : Parser σ κ} (h : p.Stays q) : p.Forward q :=
  ⟨h.marks, Or.inl ⟨h.retired, Nat.le_of_eq h.cursor.symm, h.toKeeps.size_le⟩⟩

section Moving

variable [TokenStream σ κ] [DecidableEq κ] [TokenKind κ] {source : σ}

/-- The parse goes onward, and a new layout begins behind the place where it was. -/
def Parser.Moves (source : σ) (p : Parser (Metered σ) κ) (x : Ending)
    (q : Parser (Metered σ) κ) : Prop :=
  p.Proceeds source x q ∧ (x ≠ .broken → p.Forward q)

omit [DecidableEq κ] [TokenKind κ] in
/-- Movements can be put one behind the other as long as they settle. -/
theorem chains_moves : Chains (Parser.Moves source : Parser (Metered σ) κ → _) where
  refl p := ⟨chains_proceeds.refl p, fun _ => .refl p⟩
  broken p := ⟨chains_proceeds.broken p, fun hx => absurd rfl hx⟩
  trans h h' :=
    ⟨chains_proceeds.trans h.1 h'.1, fun hx => (h.2 (fun heq => nomatch heq)).trans (h'.2 hx)⟩

/-- A run that proceeds and keeps the layout moves. -/
theorem Carries.moves {m : Parsing (Metered σ) κ α}
    (h : Carries (Parser.Steady source) (Parser.Proceeds source) m)
    (hforward : ∀ p, p.Steady source → ending (m p).1 ≠ .broken → p.Forward (m p).2) :
    Carries (Parser.Steady source) (Parser.Moves source) m :=
  fun p hp => ⟨(h p hp).1, (h p hp).2, hforward p hp⟩

/-- A run that moves proceeds. -/
theorem Carries.onward {m : Parsing (Metered σ) κ α}
    (h : Carries (Parser.Steady source) (Parser.Moves source) m) :
    Carries (Parser.Steady source) (Parser.Proceeds source) m :=
  fun p hp => ⟨(h p hp).1, (h p hp).2.1⟩

/-- A look pulls tokens, and the layout stays. -/
theorem peek_forward (depth : Nat) (p : Parser σ κ) : p.Forward (Parser.peek depth p).2 :=
  (peek_stays depth p).forward

/-- A step may let the window go, and what is left of the table then fits the new layout. -/
theorem advance_forward (p : Parser σ κ) : p.Forward (Parser.advance p).2 := by
  rcases Parser.advance_spec p with ⟨w, h, hg, -⟩ | ⟨e, w, h, hg⟩
  · rw [h]
    exact .stepped hg
  · rw [h]
    exact .grows hg

/-- The body of a memoized rule moves, or the jump does, and the span that is recorded afterwards is
    of the layout of that moment. -/
theorem carries_memoize_moves (name : String) {body : Parsing (Metered σ) κ Unit}
    (h : Carries (Parser.Steady source) (Parser.Moves source) body) :
    Carries (Parser.Steady source) (Parser.Moves source) (Parser.memoize name body) := by
  refine (carries_memoize_onward name h.onward).moves ?_
  intro p hp
  have hcases := Parser.memoize_cases name body p
  rcases ho : Parser.memoize name body p with ⟨r, q'⟩
  rw [ho] at hcases
  intro hx
  cases hcases with
  | off _ hr => exact (h.of_eq hp hr).2.2 hx
  | @hit span _ hfind hstart _ =>
      -- every span that is stored leads onward, so that a jump along it does
      have hle : p.window.cursor ≤ span.stop := by
        rw [← hstart]
        exact hp.ordered name p.absolute span (Memo.holds_of_find? hfind)
      exact ⟨rfl, Or.inl ⟨rfl, hle, Nat.le_refl _⟩⟩
  | failed _ _ hr =>
      exact (Parser.Forward.asked p name).trans ((h.of_eq (hp.asked name) hr).2.2 hx)
  | ran _ _ hr _ =>
      have hforward := (h.of_eq (hp.asked name) hr).2.2 hx
      exact ((Parser.Forward.asked p name).trans hforward).recorded name
  | stale _ _ => exact absurd rfl hx
  | reversed _ _ _ => exact absurd rfl hx

/-- **A quiet evaluation never comes back to a layout that it has left.** -/
theorem compositional_moves (rules : ν → Expr κ ν) (source : σ) :
    Compositional rules (Expr.Quiet rules)
      (fun m => Carries (Parser.Steady source) (Parser.Moves source) m) := by
  have hcomp := compositional_proceeds rules source
  refine .of_carries chains_moves Expr.Quiet.part ?_ ?_ ?_ ?_ ?_ ?_
  · intro depth
    exact (hcomp.peek depth).moves fun p _ _ => peek_forward depth p
  · exact hcomp.advance.moves fun p _ _ => advance_forward p
  -- a quiet expression has no mark and no release among its parts
  · intro hq
    exact absurd .refl hq.mark
  · intro restore hq
    exact absurd .refl (hq.release restore)
  · intro rule hrule
    refine (carries_speculate_onward hrule.onward).moves ?_
    intro p hp hx
    have hset := isSettled_iff_ending.mpr hx
    exact (speculate_stays hrule.onward hp (Prod.eta _).symm hset).1.forward
  · intro name body fuel _ hbody
    exact carries_memoize_moves name (hbody.bind chains_moves fun _ => .pure chains_moves _)

end Moving

/-! ## Spans that fit -/

/-- What the table holds under the names is of the present layout, as far as the table is used. -/
def Parser.Fits (names : String → Prop) (p : Parser σ κ) : Prop :=
  p.options.memoize = true → ∀ name position span, names name →
    p.memo.Holds name position span →
      position = p.window.retired + span.start ∧ span.stop ≤ p.window.size

/-- A new table holds no span that could not fit. -/
theorem Parser.fits_new (names : String → Prop) (stream : σ) (options : Options) :
    (Parser.new stream options : Parser σ κ).Fits names := by
  rintro - name position span - ⟨entries, hmem, -⟩
  exact nomatch hmem

namespace Parser.Fits

variable {names : String → Prop} {p q : Parser σ κ}

/-- A question changes no span. -/
theorem asked (h : p.Fits names) (rule : String) : (p.asked rule).Fits names := by
  intro hon name position span hname hs
  exact h hon name position span hname (Memo.holds_lookup.mp hs)

/-- Spans that end inside the window end inside a larger one. -/
theorem grows (h : p.Fits names) {w : Window σ κ} (hg : p.window.Grows w) :
    ({ p with window := w } : Parser σ κ).Fits names := by
  intro hon name position span hname hs
  obtain ⟨hposition, hstop⟩ := h hon name position span hname hs
  refine ⟨?_, Nat.le_trans hstop hg.size_le⟩
  rw [hposition]
  show p.window.retired + span.start = w.retired + span.start
  rw [hg.retired]

/-- When the window is drained, every such entry belongs to the layout that is given up. -/
theorem tidied (h : p.Fits names)
    (hordered : ∀ rule position span, p.memo.Holds rule position span → span.start ≤ span.stop) :
    p.tidied.Fits names := by
  rcases p.tidied_cases with ⟨hdrained, -, heq⟩ | heq
  · rw [heq]
    intro hon name position span hname hs
    obtain ⟨hold, hle⟩ := Memo.holds_dropBefore hs
    obtain ⟨hposition, hstop⟩ := h hon name position span hname hold
    have hstart := hordered name position span hold
    have habs : p.window.truncate.retired = p.window.retired + p.window.cursor := rfl
    omega
  · rw [heq]
    exact h

/-- A release moves the cursor at most. -/
theorem release (h : p.Fits names) (restore : Bool) :
    (Parser.release restore p).2.Fits names := by
  rw [Parser.release]
  rcases p.marks.pop with ⟨_ | cursor, marks⟩
  · exact h
  · cases restore with
    | false => exact h
    | true =>
        -- a seek past the end fails before it changes anything
        rcases Nat.lt_or_ge p.window.size cursor with hlt | hge
        · have hseek : Parser.onWindow (Window.seek cursor) { p with marks } =
              (.error (.fault .seekPastEnd), { p with marks }) :=
            Parser.onWindow_error (p := { p with marks }) (Window.seek_of_lt hlt)
          dsimp only
          rw [if_pos rfl, hseek]
          exact h
        · have hseek : Parser.onWindow (Window.seek cursor) { p with marks } =
              (.ok (), { p with marks, window := { p.window with cursor } }) :=
            Parser.onWindow_ok (p := { p with marks }) (Window.seek_of_le hge)
          dsimp only
          rw [if_pos rfl, hseek]
          exact h

/-- A new entry fits if its body has not come back to a layout that it had left. -/
theorem recorded (hq : q.Fits names) (hle : q.window.cursor ≤ q.window.size) {rule : String}
    (hforward : names rule → p.Forward q) : (p.recorded rule q).Fits names := by
  rw [Parser.recorded]
  by_cases hkept : q.window.retired ≤ p.absolute
  · rw [if_pos hkept]
    intro hon name position span hname hs
    rcases Memo.holds_store hs with ⟨rfl, rfl, rfl⟩ | hold
    · obtain ⟨hretired, -⟩ := (hforward hname).kept hkept
      refine ⟨?_, hle⟩
      show p.window.retired + p.window.cursor = q.window.retired + p.window.cursor
      rw [hretired]
    · exact hq hon name position span hname hold
  · rw [if_neg hkept]
    exact hq

/-- A rule that finds a span which fits gets through. -/
theorem memoize_of_found (h : p.Fits names) {name : String} (hname : names name)
    {body : Parsing σ κ Unit} {span : Span} (hon : p.options.memoize = true)
    (hfind : p.memo.find? name p.absolute = some span) :
    Parser.memoize name body p =
      (.ok (), { p.asked name with window := { p.window with cursor := span.stop } }) := by
  obtain ⟨hposition, hstop⟩ := h hon name p.absolute span hname (Memo.holds_of_find? hfind)
  have hstart : span.start = p.window.cursor := by
    have habs : p.absolute = p.window.retired + p.window.cursor := rfl
    omega
  rw [Parser.memoize_of_found hon hfind]
  exact Parser.jump_of_fit (p := p.asked name) hstart hstop

end Parser.Fits

/-! ## Programs that keep names for quiet bodies -/

/-- What the expression remembers under the names sets and releases no marks of its own. -/
def Expr.QuietUnder (rules : ν → Expr κ ν) (names : String → Prop) (e : Expr κ ν) : Prop :=
  ∀ name body, names name → e.Contains rules (.memo name body) → body.Quiet rules

/-- A part remembers nothing under the names that the whole does not. -/
theorem Expr.QuietUnder.part {rules : ν → Expr κ ν} {names : String → Prop} {e e' : Expr κ ν}
    (h : e.QuietUnder rules names) (hpart : Expr.Part rules e e') : e'.QuietUnder rules names :=
  fun name body hname hc => h name body hname (hc.head hpart)

/-- It is enough to look at the expression itself and at its parts. -/
theorem Expr.QuietUnder.of_parts {rules : ν → Expr κ ν} {names : String → Prop} {e : Expr κ ν}
    (hself : ∀ name body, names name → e = .memo name body → body.Quiet rules)
    (hparts : ∀ e', Expr.Part rules e e' → e'.QuietUnder rules names) :
    e.QuietUnder rules names := by
  intro name body hname hc
  rcases hc.cases_head with heq | ⟨e', hpart, hc'⟩
  · exact hself name body hname heq
  · exact hparts e' hpart name body hname hc'

/-- Without bare marks anywhere there are none under the names. -/
theorem Expr.Quiet.quietUnder {rules : ν → Expr κ ν} {e : Expr κ ν} (h : e.Quiet rules)
    (names : String → Prop) : e.QuietUnder rules names := by
  intro name body _ hc
  have hall : ∀ e', e.Contains rules e' → e'.Quiet rules := by
    intro e' hc'
    induction hc' with
    | refl => exact h
    | tail _ hpart ih => exact ih.part hpart
  exact (hall _ hc).part .memo

section Programs

variable [TokenStream σ κ] [DecidableEq κ] [TokenKind κ] {source : σ} {names : String → Prop}
  {rules : ν → Expr κ ν}

/-- Steady, and with fitting spans under the names. -/
def Parser.Fitting (source : σ) (names : String → Prop) (p : Parser (Metered σ) κ) : Prop :=
  p.Steady source ∧ p.Fits names

/-- A run that keeps a parser steady and its spans fitting can be asked for both at once. -/
theorem Carries.fitting {R : Parser (Metered σ) κ → Ending → Parser (Metered σ) κ → Prop}
    {m : Parsing (Metered σ) κ α} (h : Carries (Parser.Steady source) R m)
    (hfits : ∀ p, p.Steady source → p.Fits names → (m p).2.Fits names) :
    Carries (Parser.Fitting source names) (fun _ _ _ => True) m :=
  fun p hp => ⟨fun hset => ⟨(h p hp.1).1 hset, hfits p hp.1 hp.2⟩, trivial⟩

/-- A speculation goes back to its mark, and the spans that were recorded in between fit the layout
    that has been kept for it. -/
theorem carries_speculate_fitting {rule : Parsing (Metered σ) κ Unit}
    (h : Carries (Parser.Fitting source names) (fun _ _ _ => True) rule) :
    Carries (Parser.Fitting source names) (fun _ _ _ => True) (Parser.speculate rule) := by
  intro p hp
  refine ⟨?_, trivial⟩
  rcases hr : rule p.marked with ⟨r, q⟩
  cases hset : isSettled r with
  | true =>
      obtain ⟨hsteady, hfits⟩ := (h.of_eq ⟨hp.1.marked, hp.2⟩ hr).1 hset
      obtain ⟨q', hrelease, hq', -⟩ := hsteady.release true
      have hfits' := hfits.release true
      rw [hrelease] at hfits'
      rw [Parser.speculate_of_settled hr hset hrelease]
      intro _
      exact ⟨hq', hfits'⟩
  -- a rule that does not settle is not taken back, and nothing is claimed of the parser
  | false =>
      rw [Parser.speculate_of_unsettled hr hset]
      intro hset'
      rw [isSettled_verdict, hset] at hset'
      exact nomatch hset'

/-- Under one of the names the body is quiet, so it keeps the layout in which its span is recorded.
    Under any other name nothing is claimed. -/
theorem carries_memoize_fitting {name : String} {body : Expr κ ν} (fuel : Nat)
    (hquiet : names name → body.Quiet rules)
    (h : Carries (Parser.Fitting source names) (fun _ _ _ => True) (Expr.eval rules fuel body)) :
    Carries (Parser.Fitting source names) (fun _ _ _ => True)
      (Parser.memoize name (discard (Expr.eval rules fuel body))) := by
  have hchains : Chains fun (_ : Parser (Metered σ) κ) _ _ => True :=
    ⟨fun _ => trivial, fun _ => trivial, fun _ _ => trivial⟩
  have hbody : Carries (Parser.Fitting source names) (fun _ _ _ => True)
      (discard (Expr.eval rules fuel body)) := h.bind hchains fun _ => .pure hchains _
  intro p hp
  refine ⟨?_, trivial⟩
  have hasked : (p.asked name).Fitting source names := ⟨hp.1.asked name, hp.2.asked name⟩
  have hcases := Parser.memoize_cases name (discard (Expr.eval rules fuel body)) p
  rcases ho : Parser.memoize name (discard (Expr.eval rules fuel body)) p with ⟨r, q'⟩
  rw [ho] at hcases
  intro hset
  cases hcases with
  | off _ hr => exact (hbody.of_eq hp hr).1 hset
  | hit _ _ _ hstop => exact ⟨hasked.1.moveTo hstop, hasked.2⟩
  | failed _ _ hr => exact (hbody.of_eq hasked hr).1 hset
  | ran _ _ hr hle =>
      obtain ⟨hsteady, hfits⟩ := (hbody.of_eq hasked hr).1 rfl
      refine ⟨hsteady.recorded name hle, hfits.recorded hsteady.cursor_le ?_⟩
      -- only here it matters that the body is quiet: its run went onward, and so does the span
      intro hname
      have hcomp := compositional_moves rules source
      have hmoves := hcomp.discard (hcomp.eval fuel (hquiet hname))
      exact (Parser.Forward.asked p name).trans
        ((hmoves.of_eq hasked.1 hr).2.2 (fun heq => nomatch heq))
  | stale _ _ => exact nomatch hset
  | reversed _ _ _ => exact nomatch hset

/-- **Spans under the names fit after every evaluation** that keeps the names for quiet bodies. -/
theorem compositional_fitting (rules : ν → Expr κ ν) (names : String → Prop) (source : σ) :
    Compositional rules (Expr.QuietUnder rules names)
      (fun m => Carries (Parser.Fitting source names) (fun _ _ _ => True) m) := by
  have hcomp := compositional_steady rules source
  refine .of_carries ⟨fun _ => trivial, fun _ => trivial, fun _ _ => trivial⟩
    Expr.QuietUnder.part ?_ ?_ ?_ ?_ carries_speculate_fitting ?_
  · intro depth
    refine (hcomp.peek depth).fitting ?_
    intro p _ hfits
    rcases Window.peek_spec depth p.window with ⟨t, w, h, hg, -⟩ | ⟨e, w, h, hg⟩ | ⟨-, h⟩
    · rw [show Parser.peek depth p = _ from Parser.onWindow_ok h]
      exact hfits.grows hg
    · rw [show Parser.peek depth p = _ from Parser.onWindow_error h]
      exact hfits.grows hg
    · rw [show Parser.peek depth p = _ from Parser.onWindow_error h]
      exact hfits
  · refine hcomp.advance.fitting ?_
    intro p hp hfits
    rcases Parser.advance_spec p with ⟨w, h, hg, -⟩ | ⟨e, w, h, hg⟩
    · rw [h]
      have hgrown := hfits.grows hg
      have hstepped : (p.stepped w).Fits names := hgrown
      exact hstepped.tidied hp.ordered
    · rw [h]
      exact hfits.grows hg
  · intro _
    exact (hcomp.mark trivial).fitting fun _ _ hfits => hfits
  · intro restore _
    exact (hcomp.release restore trivial).fitting fun _ _ hfits => hfits.release restore
  · intro name body fuel hallowed hbody
    exact carries_memoize_fitting fuel (fun hname => hallowed name body hname .refl) hbody

/-- **In every parser that such programs reach the spans under the names fit.** -/
theorem Reachable.fits {p : Parser (Metered σ) κ}
    (h : Reachable rules (Expr.QuietUnder rules names) source p) : p.Fits names := by
  have hpersists : Persists (Parser.Fitting source names) (fun _ _ _ => True)
      fun _ _ : Parser (Metered σ) κ => True :=
    { refl := fun _ => trivial
      trans := fun _ _ => trivial
      run := fun _ => trivial
      marked := fun _ hp => ⟨⟨hp.1.marked, hp.2⟩, trivial⟩
      asked := fun name _ hp => ⟨⟨hp.1.asked name, hp.2.asked name⟩, trivial⟩ }
  have hnew : ∀ options, (Parser.new (.new source) options : Parser (Metered σ) κ).Fitting
      source names := fun options => ⟨steady_new source options, Parser.fits_new names _ options⟩
  exact (h.invariant (compositional_fitting rules names source) hpersists hnew).2

end Programs

end Packrat
