import Packrat.Proofs.Discipline

/-! # The layout of a parser

    Indices into the window are kept in three places: the cursor, the marks and the
    spans of the memo table.  They change their meaning whenever the window lets
    tokens go.  `Parser.Sound` says how the three fit together at any moment,
    `Parser.Forward` how two moments of a parse relate when nothing in between
    touched the marks.

    The rest of the file says once what each operation makes of a sound parser, so
    that nothing after it has to open the operations again. -/

namespace Packrat

variable {σ κ ν α β : Type}

/-! ## Windows only grow at the far end -/

/-- The second window is the first one with more tokens let in. -/
structure Window.Grows (w w' : Window σ κ) : Prop where
  cursor : w'.cursor = w.cursor
  retired : w'.retired = w.retired
  tokens : w.tokens.toList <+: w'.tokens.toList

namespace Window

/-- Pulling nothing is a case of pulling. -/
theorem Grows.refl (w : Window σ κ) : w.Grows w := ⟨rfl, rfl, List.prefix_rfl⟩

theorem Grows.trans {w w' w'' : Window σ κ} (h : w.Grows w') (h' : w'.Grows w'') :
    w.Grows w'' :=
  ⟨h'.cursor.trans h.cursor, h'.retired.trans h.retired, h.tokens.trans h'.tokens⟩

/-- Tokens are only added at the far end. -/
theorem Grows.size_le {w w' : Window σ κ} (h : w.Grows w') : w.size ≤ w'.size := by
  have hlen := h.tokens.length_le
  rwa [Array.length_toList, Array.length_toList] at hlen

/-- What is pulled comes behind the cursor, so the current token stays where it is in the stream. -/
theorem Grows.absolute {w w' : Window σ κ} (h : w.Grows w') : w'.absolute = w.absolute := by
  rw [Window.absolute, h.retired, h.cursor]
  rfl

/-- Only a depth in the upper half of the range can overflow. -/
theorem le_of_overflowsAt {w : Window σ κ} {depth : Nat} (h : w.overflowsAt depth = true) :
    wordLimit ≤ 2 * depth :=
  (of_decide_eq_true h).1

variable [TokenStream σ κ] [DecidableEq κ] [TokenKind κ]

/-- A pull ends with one more token or with a complaint. -/
theorem pull_spec (w : Window σ κ) :
    (∃ w', pull w = (.ok (), w') ∧ w.Grows w' ∧ w'.size = w.size + 1) ∨
      ∃ e w', pull w = (.error (.failed e), w') ∧ w.Grows w' := by
  rw [pull]
  split
  · refine Or.inl ⟨_, rfl, ⟨rfl, rfl, ?_⟩, Array.size_push _⟩
    rw [Array.toList_push]
    exact List.prefix_append _ _
  · split
    · exact Or.inr ⟨_, _, rfl, ⟨rfl, rfl, List.prefix_rfl⟩⟩
    · refine Or.inl ⟨_, rfl, ⟨rfl, rfl, ?_⟩, Array.size_push _⟩
      rw [Array.toList_push]
      exact List.prefix_append _ _

/-- So do several pulls. -/
theorem pullMany_spec (count : Nat) (w : Window σ κ) :
    (∃ w', pullMany count w = (.ok (), w') ∧ w.Grows w' ∧ w'.size = w.size + count) ∨
      ∃ e w', pullMany count w = (.error (.failed e), w') ∧ w.Grows w' := by
  induction count generalizing w with
  | zero => exact Or.inl ⟨w, rfl, Grows.refl w, rfl⟩
  | succ count ih =>
      rcases pull_spec w with ⟨w₁, hp, hg, hs⟩ | ⟨e, w₁, hp, hg⟩
      · have hstep : pullMany (count + 1) w = pullMany count w₁ := Run.bind_of_ok hp
        rw [hstep]
        rcases ih w₁ with ⟨w₂, hp', hg', hs'⟩ | ⟨e, w₂, hp', hg'⟩
        · exact Or.inl ⟨w₂, hp', hg.trans hg', by omega⟩
        · exact Or.inr ⟨e, w₂, hp', hg.trans hg'⟩
      · exact Or.inr ⟨e, w₁, Run.bind_of_error hp, hg⟩

/-- A fill ends with as many tokens as asked for, or with a complaint. -/
theorem fill_spec (count : Nat) (w : Window σ κ) :
    (∃ w', fill count w = (.ok (), w') ∧ w.Grows w' ∧ w.cursor + count ≤ w'.size) ∨
      ∃ e w', fill count w = (.error (.failed e), w') ∧ w.Grows w' := by
  have hread : fill count w = (do
      pullMany (w.cursor + count - w.size)
      Run.update fun w => { w with peak := max w.peak w.size } :
        Run (Window σ κ) LexError Unit) w :=
    Run.bind_of_ok rfl
  rw [hread]
  rcases pullMany_spec (w.cursor + count - w.size) w with ⟨w₁, hp, hg, hs⟩ | ⟨e, w₁, hp, hg⟩
  · refine Or.inl ⟨_, Run.bind_of_ok hp, ⟨hg.cursor, hg.retired, hg.tokens⟩, ?_⟩
    show w.cursor + count ≤ w₁.size
    omega
  · exact Or.inr ⟨e, w₁, Run.bind_of_error hp, hg⟩

/-- A look that is too far ahead is refused before anything is let in. -/
theorem peek_of_overflows {depth : Nat} {w : Window σ κ} (h : w.overflowsAt depth = true) :
    peek depth w = (.error (.fault .lookaheadOverflow), w) := by
  rw [peek, Run.read_bind, if_pos h]
  rfl

/-- Looking ahead lets tokens in and nothing else.  The only fault is an index that leaves the
    64-bit range. -/
theorem peek_spec (depth : Nat) (w : Window σ κ) :
    (∃ t w', peek depth w = (.ok t, w') ∧ w.Grows w' ∧ w'.tokens[w.cursor + depth]? = some t) ∨
      (∃ e w', peek depth w = (.error (.failed e), w') ∧ w.Grows w') ∨
      w.overflowsAt depth = true ∧ peek depth w = (.error (.fault .lookaheadOverflow), w) := by
  -- three ways: the place is beyond the range, the window is filled that far, or the source fails
  by_cases ho : w.overflowsAt depth = true
  · exact Or.inr (Or.inr ⟨ho, peek_of_overflows ho⟩)
  · rw [peek, Run.read_bind, if_neg ho]
    rcases fill_spec (depth + 1) w with ⟨w₁, hp, hg, hs⟩ | ⟨e, w₁, hp, hg⟩
    · -- the filled window holds the token
      have hlt : w.cursor + depth < w₁.tokens.size := by
        have hs' : w.cursor + (depth + 1) ≤ w₁.tokens.size := hs
        omega
      have htok := Array.getElem?_eq_getElem hlt
      refine Or.inl ⟨w₁.tokens[w.cursor + depth], w₁, ?_, hg, htok⟩
      rw [Run.bind_of_ok hp, Run.read_bind, hg.cursor, htok]
      rfl
    · exact Or.inr (Or.inl ⟨e, w₁, Run.bind_of_error hp, hg⟩)

/-- Moving on lets in the current token, if need be, and moves the cursor behind it. -/
theorem advance_spec (w : Window σ κ) :
    (∃ w₁, advance w = (.ok (), { w₁ with cursor := w.cursor + 1 }) ∧ w.Grows w₁ ∧
        w.cursor + 1 ≤ w₁.size) ∨
      ∃ e w₁, advance w = (.error (.failed e), w₁) ∧ w.Grows w₁ := by
  rcases fill_spec 1 w with ⟨w₁, hp, hg, hs⟩ | ⟨e, w₁, hp, hg⟩
  · refine Or.inl ⟨w₁, ?_, hg, hs⟩
    rw [← hg.cursor]
    exact Run.bind_of_ok hp
  · exact Or.inr ⟨e, w₁, Run.bind_of_error hp, hg⟩

end Window

/-! ## Spans in the memo table -/

namespace Assoc

variable {γ δ : Type} [DecidableEq γ]

/-- What is found is stored. -/
theorem mem_of_get? {k : γ} {v : δ} {t : Assoc γ δ} (h : get? k t = some v) : (k, v) ∈ t := by
  induction t with
  | nil => exact nomatch h
  | cons hd t ih =>
      obtain ⟨k', v'⟩ := hd
      rw [show get? k ((k', v') :: t) = if k' = k then some v' else get? k t from rfl] at h
      by_cases hk : k' = k
      · rw [if_pos hk] at h
        rw [hk, Option.some.inj h]
        exact List.mem_cons_self
      · rw [if_neg hk] at h
        exact List.mem_cons_of_mem _ (ih h)

/-- A stored pair is the new one, or it was there before. -/
theorem mem_put {k k' : γ} {v v' : δ} {t : Assoc γ δ} (h : (k', v') ∈ put k v t) :
    (k' = k ∧ v' = v) ∨ (k', v') ∈ t := by
  induction t with
  | nil =>
      rcases List.mem_cons.mp h with heq | hmem
      · exact Or.inl (Prod.mk.inj heq)
      · exact nomatch hmem
  | cons hd t ih =>
      obtain ⟨k₀, v₀⟩ := hd
      rw [show put k v ((k₀, v₀) :: t)
        = if k₀ = k then (k, v) :: t else (k₀, v₀) :: put k v t from rfl] at h
      by_cases hk : k₀ = k
      · rw [if_pos hk] at h
        rcases List.mem_cons.mp h with heq | hmem
        · exact Or.inl (Prod.mk.inj heq)
        · exact Or.inr (List.mem_cons_of_mem _ hmem)
      · rw [if_neg hk] at h
        rcases List.mem_cons.mp h with heq | hmem
        · exact Or.inr (heq ▸ List.mem_cons_self)
        · rcases ih hmem with hnew | hold
          · exact Or.inl hnew
          · exact Or.inr (List.mem_cons_of_mem _ hold)

end Assoc

namespace Memo

/-- The table has an entry for `rule` at `position`. -/
def Holds (m : Memo) (rule : String) (position : Nat) (span : Span) : Prop :=
  ∃ entries, (rule, entries) ∈ m.rules ∧ (position, span) ∈ entries

/-- An answer of the table is an entry of it. -/
theorem holds_of_find? {m : Memo} {rule : String} {position : Nat} {span : Span}
    (h : m.find? rule position = some span) : m.Holds rule position span := by
  rw [find?, entriesOf] at h
  cases hr : m.rules.get? rule with
  | none =>
      rw [hr] at h
      have hnone : (none : Option Span) = some span := h
      cases hnone
  | some entries =>
      rw [hr] at h
      exact ⟨entries, Assoc.mem_of_get? hr, Assoc.mem_of_get? h⟩

/-- An entry after a store is the new one or was there before. -/
theorem holds_store {m : Memo} {rule rule' : String} {position position' : Nat}
    {span span' : Span} (h : (m.store rule position span).Holds rule' position' span') :
    (rule' = rule ∧ position' = position ∧ span' = span) ∨ m.Holds rule' position' span' := by
  obtain ⟨entries, hrule, hentry⟩ := h
  -- the entry is in the row of its name, which is the only one that has changed
  rcases Assoc.mem_put hrule with ⟨rfl, rfl⟩ | hold
  · rcases Assoc.mem_put hentry with hnew | hmem
    · exact Or.inl ⟨rfl, hnew⟩
    · refine Or.inr ?_
      rw [show m.entriesOf rule' = (m.rules.get? rule').getD [] from rfl] at hmem
      cases hr : m.rules.get? rule' with
      | none =>
          rw [hr] at hmem
          exact nomatch hmem
      | some entries =>
          rw [hr] at hmem
          exact ⟨entries, Assoc.mem_of_get? hr, hmem⟩
  · exact Or.inr ⟨entries, hold, hentry⟩

/-- What is left after entries have been dropped was there before and is not too old. -/
theorem holds_dropBefore {m : Memo} {threshold : Nat} {rule : String} {position : Nat}
    {span : Span} (h : (m.dropBefore threshold).Holds rule position span) :
    m.Holds rule position span ∧ threshold ≤ position := by
  obtain ⟨entries, hrule, hentry⟩ := h
  obtain ⟨⟨rule₀, entries₀⟩, hmem, heq⟩ := List.mem_map.mp hrule
  obtain ⟨rfl, rfl⟩ := Prod.mk.inj heq
  obtain ⟨hentry₀, hle⟩ := List.mem_filter.mp hentry
  exact ⟨⟨entries₀, hmem, hentry₀⟩, of_decide_eq_true hle⟩

/-- A table without entries is empty. -/
theorem isEmpty_of_not_holds {m : Memo} (h : ∀ rule position span, ¬ m.Holds rule position span) :
    m.isEmpty = true := by
  have hnil : m.rules.flatMap Prod.snd = [] := by
    refine List.eq_nil_iff_forall_not_mem.mpr ?_
    rintro ⟨position, span⟩ hmem
    obtain ⟨⟨rule, entries⟩, hrule, hentry⟩ := List.mem_flatMap.mp hmem
    exact h rule position span ⟨entries, hrule, hentry⟩
  rw [isEmpty, size, hnil]
  rfl

/-- Asking changes the counters, and no entry. -/
theorem holds_lookup {m : Memo} {rule rule' : String} {position position' : Nat} {span : Span} :
    (m.lookup rule position).2.Holds rule' position' span ↔ m.Holds rule' position' span := by
  rw [Holds, Holds, rules_lookup]

end Memo

/-! ## Sound states and forward moves -/

namespace Parser

/-- The indices that a parser keeps fit together: the marks are in order and not behind the cursor,
    the cursor is in the window, and every span recorded starts at the position it is recorded for
    and ends in the window. -/
structure Sound (p : Parser σ κ) : Prop where
  sorted : p.marks.cursors.Pairwise (· ≥ ·)
  marks_le : ∀ c ∈ p.marks.cursors, c ≤ p.window.cursor
  cursor_le : p.window.cursor ≤ p.window.size
  spans : ∀ rule position span, p.memo.Holds rule position span →
    position = p.window.retired + span.start ∧ span.start ≤ span.stop ∧
      span.stop ≤ p.window.size

/-- From `p` to `q` the marks are the same and the parse has not gone back.  Either the window kept
    its layout, or it let tokens go, which it does only without marks and only when the parse has
    moved on. -/
structure Forward (p q : Parser σ κ) : Prop where
  marks : q.marks = p.marks
  layout : (q.window.retired = p.window.retired ∧ p.window.cursor ≤ q.window.cursor ∧
      p.window.size ≤ q.window.size) ∨
    (p.marks.cursors = [] ∧ p.absolute < q.window.retired)

/-- A new parser has neither marks nor entries that could be wrong. -/
theorem sound_new (stream : σ) (options : Options) : (new stream options : Parser σ κ).Sound where
  sorted := List.Pairwise.nil
  marks_le := fun _ h => nomatch h
  cursor_le := Nat.le_refl _
  spans := by
    rintro rule position span ⟨entries, hmem, -⟩
    exact nomatch hmem

theorem Forward.refl (p : Parser σ κ) : p.Forward p :=
  ⟨rfl, Or.inl ⟨rfl, Nat.le_refl _, Nat.le_refl _⟩⟩

/-- Runs that go forward can be put one behind the other. -/
theorem Forward.trans {p q r : Parser σ κ} (h : p.Forward q) (h' : q.Forward r) :
    p.Forward r := by
  refine ⟨h'.marks.trans h.marks, ?_⟩
  have hq : q.absolute = q.window.retired + q.window.cursor := rfl
  have hp : p.absolute = p.window.retired + p.window.cursor := rfl
  rcases h.layout with ⟨hr, hc, hs⟩ | ⟨hm, hlt⟩
  · rcases h'.layout with ⟨hr', hc', hs'⟩ | ⟨hm', hlt'⟩
    · exact Or.inl ⟨hr'.trans hr, Nat.le_trans hc hc', Nat.le_trans hs hs'⟩
    · rw [h.marks] at hm'
      exact Or.inr ⟨hm', by omega⟩
  · rcases h'.layout with ⟨hr', hc', hs'⟩ | ⟨hm', hlt'⟩
    · exact Or.inr ⟨hm, by omega⟩
    · exact Or.inr ⟨hm, by omega⟩

/-- With a mark outstanding the window keeps its layout. -/
theorem Forward.of_marked {p q : Parser σ κ} (h : p.Forward q) (hm : p.marks.cursors ≠ []) :
    q.window.retired = p.window.retired ∧ p.window.cursor ≤ q.window.cursor ∧
      p.window.size ≤ q.window.size := by
  rcases h.layout with hkept | ⟨hnone, -⟩
  · exact hkept
  · exact absurd hnone hm

/-- Letting tokens in disturbs nothing. -/
theorem Sound.grows {p : Parser σ κ} (h : p.Sound) {w : Window σ κ} (hg : p.window.Grows w) :
    ({ p with window := w } : Parser σ κ).Sound where
  sorted := h.sorted
  marks_le := by
    intro c hc
    show c ≤ w.cursor
    rw [hg.cursor]
    exact h.marks_le c hc
  cursor_le := by
    show w.cursor ≤ w.size
    rw [hg.cursor]
    exact Nat.le_trans h.cursor_le hg.size_le
  spans := by
    intro rule position span hs
    obtain ⟨h1, h2, h3⟩ := h.spans rule position span hs
    refine ⟨?_, h2, Nat.le_trans h3 hg.size_le⟩
    rw [h1]
    show p.window.retired + span.start = w.retired + span.start
    rw [hg.retired]

/-- A window that has only pulled tokens has gone forward. -/
theorem Forward.grows {p : Parser σ κ} {w : Window σ κ} (hg : p.window.Grows w) :
    p.Forward { p with window := w } :=
  ⟨rfl, Or.inl ⟨hg.retired, Nat.le_of_eq hg.cursor.symm, hg.size_le⟩⟩

/-- The cursor may go anywhere between the newest mark and the end of the window. -/
theorem Sound.moveTo {p : Parser σ κ} (h : p.Sound) {index : Nat}
    (hmarks : ∀ c ∈ p.marks.cursors, c ≤ index) (hle : index ≤ p.window.size) :
    ({ p with window := { p.window with cursor := index } } : Parser σ κ).Sound where
  sorted := h.sorted
  marks_le := hmarks
  cursor_le := hle
  spans := h.spans

/-- When the window is drained, every entry belongs to the layout that is given up. -/
theorem not_holds_truncate {p : Parser σ κ} (h : p.Sound)
    (hd : p.window.cursor = p.window.size) (rule : String) (position : Nat) (span : Span) :
    ¬ p.truncate.memo.Holds rule position span := by
  intro hs
  obtain ⟨hold, hle⟩ := Memo.holds_dropBefore hs
  obtain ⟨h1, h2, h3⟩ := h.spans rule position span hold
  have habs : p.window.truncate.retired = p.window.retired + p.window.cursor := rfl
  omega

/-- Truncation at the end of the window leaves no mark and no entry behind that a later token could
    contradict. -/
theorem Sound.truncate {p : Parser σ κ} (h : p.Sound) (hd : p.window.cursor = p.window.size)
    (hm : p.marks.cursors = []) : p.truncate.Sound where
  sorted := by
    show p.marks.cursors.Pairwise (· ≥ ·)
    rw [hm]
    exact List.Pairwise.nil
  marks_le := by
    intro c hc
    have hc' : c ∈ p.marks.cursors := hc
    rw [hm] at hc'
    exact nomatch hc'
  cursor_le := Nat.zero_le _
  spans := fun rule position span hs => absurd hs (not_holds_truncate h hd rule position span)

/-- What the window answers the parser answers. -/
theorem onWindow_ok {m : Run (Window σ κ) LexError α} {p : Parser σ κ} {a : α} {w : Window σ κ}
    (h : m p.window = (.ok a, w)) : onWindow m p = (.ok a, { p with window := w }) := by
  rw [onWindow, Run.zoom, h]

/-- A complaint of the window becomes one of the parser, and the window is kept as the failure left
    it. -/
theorem onWindow_error {m : Run (Window σ κ) LexError α} {p : Parser σ κ} {e : Halt LexError}
    {w : Window σ κ} (h : m p.window = (.error e, w)) :
    onWindow m p = (.error (e.map .lexical), { p with window := w }) := by
  rw [onWindow, Run.zoom, h]

/-- The parser with a new mark at the cursor. -/
def marked (p : Parser σ κ) : Parser σ κ := { p with marks := p.marks.push p.window.cursor }

/-- The parser `q` taken back to the place and the marks of `p`. -/
def rewound (p q : Parser σ κ) : Parser σ κ :=
  { q with marks := p.marks, window := { q.window with cursor := p.window.cursor } }

theorem mark_apply (p : Parser σ κ) : mark p = (.ok p.marked.marks.depth, p.marked) := rfl

/-- A new mark stands at the cursor, and that is inside the window. -/
theorem Sound.marked {p : Parser σ κ} (h : p.Sound) : p.marked.Sound where
  sorted := List.pairwise_cons.mpr ⟨h.marks_le, h.sorted⟩
  marks_le := by
    intro c hc
    rcases List.mem_cons.mp hc with rfl | hmem
    · exact Nat.le_refl _
    · exact h.marks_le c hmem
  cursor_le := h.cursor_le
  spans := h.spans

/-- What went forward from a marked parser can be taken back. -/
theorem release_of_forward {p q : Parser σ κ} (hp : p.Sound) (h : p.marked.Forward q) :
    release true q = (.ok (), p.rewound q) := by
  have hpop : q.marks.pop = (some p.window.cursor, p.marks) := by
    rw [h.marks]
    rfl
  have hsize : p.window.cursor ≤ q.window.size :=
    Nat.le_trans hp.cursor_le (h.of_marked (List.cons_ne_nil _ _)).2.2
  rw [release, hpop]
  show onWindow (Window.seek p.window.cursor) { q with marks := p.marks } = _
  exact onWindow_ok (Window.seek_of_le hsize)

/-- Rewinding brings back a cursor that the window still reaches, with the marks below it. -/
theorem Sound.rewound {p q : Parser σ κ} (hp : p.Sound) (hq : q.Sound)
    (h : p.marked.Forward q) : (p.rewound q).Sound where
  sorted := hp.sorted
  marks_le := hp.marks_le
  cursor_le := Nat.le_trans hp.cursor_le (h.of_marked (List.cons_ne_nil _ _)).2.2
  spans := hq.spans

/-- A rewound run has pulled tokens and recorded spans, and nothing else of it is left. -/
theorem Forward.rewound {p q : Parser σ κ} (h : p.marked.Forward q) : p.Forward (p.rewound q) := by
  obtain ⟨hr, -, hs⟩ := h.of_marked (List.cons_ne_nil _ _)
  exact ⟨rfl, Or.inl ⟨hr, Nat.le_refl _, hs⟩⟩

/-- A release without a mark does nothing. -/
theorem release_of_nil {restore : Bool} {p : Parser σ κ} (h : p.marks.cursors = []) :
    release restore p = (.ok (), p) := by
  rw [release, Marks.pop, h]

/-- A release takes the newest mark off and goes back to it if asked to. -/
theorem release_of_cons {restore : Bool} {p : Parser σ κ} {c : Nat} {cs : List Nat} (hp : p.Sound)
    (h : p.marks.cursors = c :: cs) :
    release restore p = (.ok (), { p with
      marks := ⟨cs⟩
      window := if restore then { p.window with cursor := c } else p.window }) := by
  have hc : c ≤ p.window.size := by
    refine Nat.le_trans (hp.marks_le c ?_) hp.cursor_le
    rw [h]
    exact List.mem_cons_self
  have hpop : p.marks.pop = (some c, ⟨cs⟩) := by
    rw [Marks.pop, h]
  rw [release, hpop]
  cases restore with
  | false => rfl
  | true => exact onWindow_ok (p := { p with marks := ⟨cs⟩ }) (Window.seek_of_le hc)

/-- The four endings of a speculation.  After a match or a complaint the mark is released; after a
    fault or exhausted fuel nothing more is run. -/
theorem speculate_of_ok {rule : Parsing σ κ Unit} {p q : Parser σ κ} (hp : p.Sound)
    (hf : p.marked.Forward q) (h : rule p.marked = (.ok (), q)) :
    speculate rule p = (.ok none, p.rewound q) := by
  rw [speculate, Run.bind_of_ok (mark_apply p), Run.bind_of_ok (Run.settle_of_ok h),
    Run.bind_of_ok (release_of_forward hp hf)]
  rfl

/-- A rule that fails is rewound, too; only a mismatch is an answer, every other complaint is passed
    on. -/
theorem speculate_of_failed {rule : Parsing σ κ Unit} {p q : Parser σ κ} {e : ParseError κ}
    (hp : p.Sound) (hf : p.marked.Forward q) (h : rule p.marked = (.error (.failed e), q)) :
    speculate rule p =
      (if e.isMismatch then .ok (some e) else .error (.failed e), p.rewound q) := by
  rw [speculate, Run.bind_of_ok (mark_apply p), Run.bind_of_ok (Run.settle_of_failed h),
    Run.bind_of_ok (release_of_forward hp hf)]
  show (if e.isMismatch then _ else _ : Parsing σ κ (Option (ParseError κ))) (p.rewound q) = _
  by_cases he : e.isMismatch = true
  · rw [if_pos he, if_pos he]
    rfl
  · rw [if_neg he, if_neg he]
    rfl

/-- A fault is passed on as it is, and nothing is rewound. -/
theorem speculate_of_fault {rule : Parsing σ κ Unit} {p q : Parser σ κ} {c : Fault}
    (h : rule p.marked = (.error (.fault c), q)) :
    speculate rule p = (.error (.fault c), q) := by
  rw [speculate, Run.bind_of_ok (mark_apply p), Run.bind_of_error (Run.settle_of_fault h)]

/-- Without fuel there is nothing to rewind either. -/
theorem speculate_of_outOfFuel {rule : Parsing σ κ Unit} {p q : Parser σ κ}
    (h : rule p.marked = (.error .outOfFuel, q)) :
    speculate rule p = (.error .outOfFuel, q) := by
  rw [speculate, Run.bind_of_ok (mark_apply p), Run.bind_of_error (Run.settle_of_outOfFuel h)]

/-- The parser after a question to the memo table. -/
def asked (rule : String) (p : Parser σ κ) : Parser σ κ :=
  { p with memo := (p.memo.lookup rule p.absolute).2 }

/-- The parser `q` after a successful body that was started from `p`. -/
def recorded (rule : String) (p q : Parser σ κ) : Parser σ κ :=
  if q.window.retired ≤ p.absolute then
    { q with memo := q.memo.store rule p.absolute ⟨p.window.cursor, q.window.cursor⟩ }
  else q

/-- Asking the memo table does not touch its entries. -/
theorem Sound.asked {p : Parser σ κ} (h : p.Sound) (rule : String) : (p.asked rule).Sound where
  sorted := h.sorted
  marks_le := h.marks_le
  cursor_le := h.cursor_le
  spans := fun rule' position span hs => h.spans rule' position span (Memo.holds_lookup.mp hs)

theorem Forward.asked (p : Parser σ κ) (rule : String) : p.Forward (p.asked rule) :=
  ⟨rfl, Or.inl ⟨rfl, Nat.le_refl _, Nat.le_refl _⟩⟩

/-- Where the guard of a record is met, the window has kept its layout. -/
theorem Forward.kept {p q : Parser σ κ} (h : p.Forward q) (hle : q.window.retired ≤ p.absolute) :
    q.window.retired = p.window.retired ∧ p.window.cursor ≤ q.window.cursor := by
  rcases h.layout with ⟨hr, hc, -⟩ | ⟨-, hlt⟩
  · exact ⟨hr, hc⟩
  · omega

/-- A span that ends where the cursor has got to lies inside the window, so the entry is a good
    one. -/
theorem Sound.recorded {p q : Parser σ κ} (hq : q.Sound) (h : p.Forward q) (rule : String) :
    (p.recorded rule q).Sound := by
  rw [Parser.recorded]
  by_cases hle : q.window.retired ≤ p.absolute
  · rw [if_pos hle]
    obtain ⟨hr, hc⟩ := h.kept hle
    refine ⟨hq.sorted, hq.marks_le, hq.cursor_le, ?_⟩
    intro rule' position span hs
    rcases Memo.holds_store hs with ⟨-, rfl, rfl⟩ | hold
    · refine ⟨?_, hc, hq.cursor_le⟩
      show p.window.retired + p.window.cursor = q.window.retired + p.window.cursor
      rw [hr]
    · exact hq.spans rule' position span hold
  · rw [if_neg hle]
    exact hq

/-- An entry more is all that recording adds. -/
theorem Forward.recorded {p q : Parser σ κ} (h : p.Forward q) (rule : String) :
    p.Forward (p.recorded rule q) := by
  rw [Parser.recorded]
  by_cases hle : q.window.retired ≤ p.absolute
  · rw [if_pos hle]
    exact ⟨h.marks, h.layout⟩
  · rw [if_neg hle]
    exact h

/-- A body that succeeds without going back is recorded. -/
theorem runAndRecord_of_ok {rule : String} {body : Parsing σ κ Unit} {p q : Parser σ κ}
    (hf : p.Forward q) (h : body p = (.ok (), q)) :
    runAndRecord rule body p = (.ok (), p.recorded rule q) := by
  rw [runAndRecord, Run.read_bind, Run.read_bind, Run.bind_of_ok h]
  rw [record, Parser.recorded]
  by_cases hle : q.window.retired ≤ p.absolute
  · have hspan : Span.of? p.window.cursor q.window.cursor
        = some ⟨p.window.cursor, q.window.cursor⟩ := if_pos (hf.kept hle).2
    rw [if_pos hle, if_pos hle, hspan]
  · rw [if_neg hle, if_neg hle]

/-- A body that does not succeed leaves no entry. -/
theorem runAndRecord_of_error {rule : String} {body : Parsing σ κ Unit} {p q : Parser σ κ}
    {e : Halt (ParseError κ)} (h : body p = (.error e, q)) :
    runAndRecord rule body p = (.error e, q) := by
  rw [runAndRecord, Run.read_bind, Run.read_bind, Run.bind_of_error h]

/-- Without the memo table a memoized rule is its body. -/
theorem memoize_of_off {rule : String} {body : Parsing σ κ Unit} {p : Parser σ κ}
    (h : p.options.memoize = false) : memoize rule body p = body p := by
  rw [memoize, Run.read_bind, h]
  rfl

/-- Otherwise a span that is found takes the place of the body. -/
theorem memoize_of_found {rule : String} {body : Parsing σ κ Unit} {p : Parser σ κ} {span : Span}
    (hon : p.options.memoize = true) (h : p.memo.find? rule p.absolute = some span) :
    memoize rule body p = jump span (p.asked rule) := by
  have hconsult : consult rule p = (.ok (some span), p.asked rule) := by
    rw [consult, Parser.asked, ← h, ← Memo.lookup_fst]
  rw [memoize, Run.read_bind, hon]
  show (consult rule >>= _) p = _
  rw [Run.bind_of_ok hconsult]

/-- The jump succeeds if the span starts at the cursor and ends in the window. -/
theorem jump_of_fit {p : Parser σ κ} {span : Span} (hstart : span.start = p.window.cursor)
    (hstop : span.stop ≤ p.window.size) :
    jump span p = (.ok (), { p with window := { p.window with cursor := span.stop } }) := by
  rw [jump, Run.read_bind, if_pos hstart]
  exact onWindow_ok (Window.seek_of_le hstop)

/-- A span that starts elsewhere belongs to another layout of the window, and is refused. -/
theorem jump_of_stale {p : Parser σ κ} {span : Span} (h : span.start ≠ p.window.cursor) :
    jump span p = (.error (.fault .staleSpan), p) := by
  rw [jump, Run.read_bind, if_neg h]
  rfl

/-- Otherwise it breaks a rule of use. -/
theorem jump_cases (span : Span) (p : Parser σ κ) :
    (span.start = p.window.cursor ∧ span.stop ≤ p.window.size ∧
      jump span p = (.ok (), { p with window := { p.window with cursor := span.stop } })) ∨
    ∃ cause, jump span p = (.error (.fault cause), p) := by
  by_cases hstart : span.start = p.window.cursor
  · rcases Nat.lt_or_ge p.window.size span.stop with hlt | hge
    · refine Or.inr ⟨.seekPastEnd, ?_⟩
      rw [jump, Run.read_bind, if_pos hstart]
      exact onWindow_error (Window.seek_of_lt hlt)
    · exact Or.inl ⟨hstart, hge, jump_of_fit hstart hge⟩
  · exact Or.inr ⟨.staleSpan, jump_of_stale hstart⟩

/-- In a sound parser every span fits. -/
theorem memoize_of_hit {rule : String} {body : Parsing σ κ Unit} {p : Parser σ κ} {span : Span}
    (hp : p.Sound) (hon : p.options.memoize = true)
    (h : p.memo.find? rule p.absolute = some span) :
    memoize rule body p =
      (.ok (), { p.asked rule with window := { p.window with cursor := span.stop } }) := by
  obtain ⟨hpos, -, hstop⟩ := hp.spans rule p.absolute span (Memo.holds_of_find? h)
  have hstart : span.start = p.window.cursor := by
    have habs : p.absolute = p.window.retired + p.window.cursor := rfl
    omega
  rw [memoize_of_found hon h]
  exact jump_of_fit (p := p.asked rule) hstart hstop

/-- Otherwise the body is run and its success is recorded. -/
theorem memoize_of_miss {rule : String} {body : Parsing σ κ Unit} {p : Parser σ κ}
    (hon : p.options.memoize = true) (h : p.memo.find? rule p.absolute = none) :
    memoize rule body p = runAndRecord rule body (p.asked rule) := by
  have hconsult : consult rule p = (.ok none, p.asked rule) := by
    rw [consult, Parser.asked, ← h, ← Memo.lookup_fst]
  rw [memoize, Run.read_bind, hon]
  show (consult rule >>= _) p = _
  rw [Run.bind_of_ok hconsult]

/-- The parser after letting go what it can: everything, when the window is drained and no mark is
    outstanding. -/
def tidied (p : Parser σ κ) : Parser σ κ :=
  if p.window.isDrained && !p.isSpeculating then p.truncate else p

/-- The parser behind the current token, with `w` for a window that holds it. -/
def stepped (p : Parser σ κ) (w : Window σ κ) : Parser σ κ :=
  { p with window := { w with cursor := p.window.cursor + 1 } }

/-- Tidying truncates a drained window without marks, and does nothing otherwise. -/
theorem tidied_cases (p : Parser σ κ) :
    (p.window.cursor = p.window.size ∧ p.marks.cursors = [] ∧ p.tidied = p.truncate) ∨
      p.tidied = p := by
  by_cases ht : (p.window.isDrained && !p.isSpeculating) = true
  · obtain ⟨hdrained, hfree⟩ := Bool.and_eq_true_iff.mp ht
    refine Or.inl ⟨beq_iff_eq.mp hdrained, ?_, if_pos ht⟩
    cases hc : p.marks.cursors with
    | nil => rfl
    | cons c cs =>
        rw [show p.isSpeculating = !p.marks.cursors.isEmpty from rfl, hc] at hfree
        exact nomatch hfree
  · exact Or.inr (if_neg ht)

/-- The cursor may step over a token that is held. -/
theorem Sound.stepped {p : Parser σ κ} {w : Window σ κ} (hp : p.Sound) (hg : p.window.Grows w)
    (hs : p.window.cursor + 1 ≤ w.size) : (p.stepped w).Sound :=
  (hp.grows hg).moveTo (fun c hc => Nat.le_succ_of_le (hp.marks_le c hc)) hs

/-- Tidying breaks no invariant: it truncates only where nothing points into the window. -/
theorem Sound.tidied {p : Parser σ κ} (hp : p.Sound) : p.tidied.Sound := by
  rcases tidied_cases p with ⟨hdrained, hnone, heq⟩ | heq
  · rw [heq]
    exact hp.truncate hdrained hnone
  · rw [heq]
    exact hp

/-- A step goes forward, also when it lets the tokens go. -/
theorem Forward.stepped {p : Parser σ κ} {w : Window σ κ} (hg : p.window.Grows w) :
    p.Forward (p.stepped w).tidied := by
  rcases tidied_cases (p.stepped w) with ⟨-, hnone, heq⟩ | heq
  · rw [heq]
    refine ⟨rfl, Or.inr ⟨hnone, ?_⟩⟩
    show p.window.retired + p.window.cursor < w.retired + (p.window.cursor + 1)
    rw [hg.retired]
    omega
  · rw [heq]
    exact ⟨rfl, Or.inl ⟨hg.retired, Nat.le_succ _, hg.size_le⟩⟩

variable [TokenStream σ κ] [DecidableEq κ] [TokenKind κ]

/-- A depth whose index overflows is refused before anything is pulled. -/
theorem peek_of_overflows {depth : Nat} {p : Parser σ κ}
    (h : p.window.overflowsAt depth = true) :
    peek depth p = (.error (.fault .lookaheadOverflow), p) :=
  onWindow_error (Window.peek_of_overflows h)

/-- Looking at the current token lets it in, if need be, or ends with a lexical error. -/
theorem check_spec (k : κ) (p : Parser σ κ) :
    (∃ matched w, check k p = (.ok matched, { p with window := w }) ∧ p.window.Grows w) ∨
      ∃ e w, check k p = (.error (.failed (.lexical e)), { p with window := w }) ∧
        p.window.Grows w := by
  rcases Window.peek_spec 0 p.window with ⟨t, w, h, hg, -⟩ | ⟨e, w, h, hg⟩ | ⟨ho, -⟩
  · refine Or.inl ⟨decide (t.kind = k), w, ?_, hg⟩
    exact Run.bind_of_ok (Run.bind_of_ok (onWindow_ok h))
  · exact Or.inr ⟨e, w, Run.bind_of_error (Run.bind_of_error (onWindow_error h)), hg⟩
  · exact absurd (Window.le_of_overflowsAt ho) (by decide)

/-- Moving on ends behind the current token or with a lexical error. -/
theorem advance_spec (p : Parser σ κ) :
    (∃ w, advance p = (.ok (), (p.stepped w).tidied) ∧ p.window.Grows w ∧
        p.window.cursor + 1 ≤ w.size) ∨
      ∃ e w, advance p = (.error (.failed (.lexical e)), { p with window := w }) ∧
        p.window.Grows w := by
  rcases Window.advance_spec p.window with ⟨w, ha, hg, hs⟩ | ⟨e, w, ha, hg⟩
  · refine Or.inl ⟨w, ?_, hg, hs⟩
    rw [advance, Run.bind_of_ok (onWindow_ok ha)]
    rfl
  · exact Or.inr ⟨e, w, Run.bind_of_error (onWindow_error ha), hg⟩

end Parser

end Packrat
