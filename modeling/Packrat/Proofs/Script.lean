import Mathlib.Control.Monad.Basic
import Packrat.Proofs.Tape

/-! # Scripts

    A script is what a stream has to say: a number of ordinary tokens and then the
    end of the input, or a lexical error in its place.  A tape that is read from
    such a stream holds a beginning of the script, so what an operation does to it
    can be read off the script: it fills the tape up to a known length, and it fails
    only where the script ends with an error. -/

namespace Packrat

variable {σ κ : Type}

/-- Ordinary tokens with the end of the input, or a lexical error, behind them. -/
structure Script (κ : Type) [DecidableEq κ] [TokenKind κ] where
  tokens : List (Token κ)
  ending : Except LexError (Token κ)
  ordinary : ∀ k ∈ tokens, k.isEof = false
  final : ∀ k, ending = .ok k → k.isEof = true

namespace Script

variable [DecidableEq κ] [TokenKind κ]

/-- The number of ordinary tokens. -/
def length (script : Script κ) : Nat := script.tokens.length

/-- The answer to the call with the number `i`.  The ending is repeated. -/
def answer (script : Script κ) (i : Nat) : Except LexError (Token κ) :=
  match script.tokens[i]? with
  | some k => .ok k
  | none => script.ending

/-- The kind of the token that answers the call with the number `i`. -/
def kindAt? (script : Script κ) (i : Nat) : Option κ := (script.answer i).toOption.map Token.kind

/-- The kinds of the ordinary tokens. -/
def kinds (script : Script κ) : List κ := script.tokens.map Token.kind

theorem kindAt?_of_answer {script : Script κ} {i : Nat} {k : Token κ}
    (h : script.answer i = .ok k) : script.kindAt? i = some k.kind := by
  rw [kindAt?, h]
  rfl

/-- Only tokens show a kind. -/
theorem answer_of_kindAt? {script : Script κ} {i : Nat} {kind : κ}
    (h : script.kindAt? i = some kind) : ∃ k, script.answer i = .ok k ∧ k.kind = kind := by
  cases hk : script.answer i with
  | error e =>
      rw [kindAt?, hk] at h
      exact nomatch h
  | ok k =>
      rw [kindAt?_of_answer hk] at h
      exact ⟨k, rfl, Option.some.inj h⟩

theorem answer_of_lt {script : Script κ} {i : Nat} (h : i < script.tokens.length) :
    script.answer i = .ok script.tokens[i] := by
  rw [answer, List.getElem?_eq_getElem h]

theorem answer_of_le {script : Script κ} {i : Nat} (h : script.length ≤ i) :
    script.answer i = script.ending := by
  rw [answer, List.getElem?_eq_none h]

/-- A script that ends with the end of the input answers every call with a token. -/
theorem exists_answer {script : Script κ} {last : Token κ} (h : script.ending = .ok last)
    (i : Nat) : ∃ k, script.answer i = .ok k := by
  rcases Nat.lt_or_ge i script.length with hlt | hge
  · exact ⟨_, answer_of_lt hlt⟩
  · exact ⟨last, (answer_of_le hge).trans h⟩

/-- An error is the ending. -/
theorem ending_of_answer {script : Script κ} {i : Nat} {e : LexError}
    (h : script.answer i = .error e) : script.ending = .error e ∧ script.length ≤ i := by
  rcases Nat.lt_or_ge i script.length with hlt | hge
  · rw [answer_of_lt hlt] at h
    exact nomatch h
  · rw [answer_of_le hge] at h
    exact ⟨h, hge⟩

/-- A kind other than the end of the input is that of an ordinary token. -/
theorem lt_of_kindAt? {script : Script κ} {i : Nat} {kind : κ}
    (h : script.kindAt? i = some kind) (hne : kind ≠ TokenKind.eof) : i < script.length := by
  obtain ⟨k, hk, rfl⟩ := answer_of_kindAt? h
  rcases Nat.lt_or_ge i script.length with hlt | hge
  · exact hlt
  · rw [answer_of_le hge] at hk
    exact absurd (beq_iff_eq.mp (script.final k hk)) hne

/-- Up to the end of the input the script shows its kinds, and the end behind them. -/
theorem kindAt?_of_ending {script : Script κ} {last : Token κ} (h : script.ending = .ok last)
    {i : Nat} (hi : i ≤ script.length) :
    script.kindAt? i = (script.kinds ++ [TokenKind.eof])[i]? := by
  have hlen : script.kinds.length = script.length := List.length_map _
  rcases Nat.lt_or_ge i script.length with hlt | hge
  · rw [kindAt?_of_answer (answer_of_lt hlt), List.getElem?_append_left (hlen ▸ hlt), kinds,
      List.getElem?_map, List.getElem?_eq_getElem hlt]
    rfl
  · obtain rfl : i = script.kinds.length := by omega
    rw [kindAt?_of_answer ((answer_of_le hge).trans h), List.getElem?_concat_length,
      beq_iff_eq.mp (script.final last h)]

/-- With an error in the place of the end, the script shows its kinds and nothing else. -/
theorem kindAt?_of_broken {script : Script κ} {e : LexError} (h : script.ending = .error e)
    (i : Nat) : script.kindAt? i = script.kinds[i]? := by
  rw [kinds, List.getElem?_map]
  rcases Nat.lt_or_ge i script.length with hlt | hge
  · rw [kindAt?_of_answer (answer_of_lt hlt), List.getElem?_eq_getElem hlt]
    rfl
  · rw [List.getElem?_eq_none hge, kindAt?, answer_of_le hge, h]
    rfl

/-- Then every token that it answers with is an ordinary one. -/
theorem getElem?_of_answer {script : Script κ} {e : LexError} (h : script.ending = .error e)
    {i : Nat} {k : Token κ} (hk : script.answer i = .ok k) : script.tokens[i]? = some k := by
  rcases Nat.lt_or_ge i script.length with hlt | hge
  · rw [answer_of_lt hlt] at hk
    rw [List.getElem?_eq_getElem hlt, Except.ok.inj hk]
  · rw [answer_of_le hge, h] at hk
    exact nomatch hk

/-- The end of the input is not among the kinds of the ordinary tokens. -/
theorem eof_not_mem_kinds (script : Script κ) : TokenKind.eof ∉ script.kinds := by
  intro hmem
  obtain ⟨k, hk, hkind⟩ := List.mem_map.mp hmem
  have hord := script.ordinary k hk
  rw [Token.isEof, hkind, beq_self_eq_true] at hord
  cases hord

/-- Before a token there are only tokens. -/
theorem answer_ok_of_le {script : Script κ} {i j : Nat} {k : Token κ} (hij : i ≤ j)
    (h : script.answer j = .ok k) : ∃ k', script.answer i = .ok k' := by
  rcases Nat.lt_or_ge i script.length with hlt | hge
  · exact ⟨_, answer_of_lt hlt⟩
  · rw [answer_of_le (Nat.le_trans hge hij)] at h
    exact ⟨k, (answer_of_le hge).trans h⟩

end Script

/-- The stream after a number of calls. -/
def TokenStream.after [TokenStream σ κ] (stream : σ) : Nat → σ
  | 0 => stream
  | i + 1 => (TokenStream.next (after stream i)).2

/-- The answer of the stream to the call with the number `i`. -/
def TokenStream.answer [TokenStream σ κ] (stream : σ) (i : Nat) : Except LexError (Token κ) :=
  (TokenStream.next (after stream i)).1

variable [TokenStream σ κ]

/-- The answers after the first call are those of the stream that it leaves. -/
theorem TokenStream.answer_succ (stream : σ) (i : Nat) :
    answer stream (i + 1) = answer (TokenStream.next stream).2 i := by
  have hafter : after stream (i + 1) = after (TokenStream.next stream).2 i := by
    induction i with
    | zero => rfl
    | succ i ih =>
        rw [after, ih]
        rfl
  rw [answer, hafter, answer]

/-- Metering a stream counts its calls and changes nothing else. -/
theorem Metered.after_new (stream : σ) (i : Nat) :
    TokenStream.after (Metered.new stream) i = ⟨TokenStream.after stream i, i⟩ := by
  induction i with
  | zero => rfl
  | succ i ih =>
      rw [TokenStream.after, ih]
      rfl

variable [DecidableEq κ] [TokenKind κ]

/-- The stream answers as the script says, up to and including its ending. -/
def Script.SpokenBy (script : Script κ) (stream : σ) : Prop :=
  ∀ i ≤ script.length,
    (TokenStream.next (TokenStream.after stream i)).1 = script.answer i

instance (script : Script κ) (stream : σ) : Decidable (script.SpokenBy stream) :=
  inferInstanceAs (Decidable (∀ i ≤ script.length,
    (TokenStream.next (TokenStream.after stream i)).1 = script.answer i))

theorem Script.SpokenBy.metered {script : Script κ} {stream : σ} (h : script.SpokenBy stream) :
    script.SpokenBy (Metered.new stream) := by
  intro i hi
  rw [Metered.after_new]
  exact h i hi

namespace Tape

/-- The tape has been read from the stream as far as it goes. -/
structure Over (script : Script κ) (stream : σ) (t : Tape σ κ) : Prop where
  answers : ∀ i k, t.tokens[i]? = some k → script.answer i = .ok k
  pulled : t.pulled = min t.tokens.length (script.length + 1)
  stream : t.stream = TokenStream.after stream t.pulled
  eof : t.eof = if script.length < t.tokens.length then script.ending.toOption else none

/-- The second tape is the first one, filled up to a length and moved to a position. -/
structure Filled (script : Script κ) (stream : σ) (t : Tape σ κ) (position length : Nat)
    (t' : Tape σ κ) : Prop where
  isOver : t'.Over script stream
  position : t'.position = position
  marks : t'.marks = t.marks
  length : t'.tokens.length = max t.tokens.length length

/-- A new tape is over every script: it holds nothing yet. -/
theorem over_new (script : Script κ) (stream : σ) :
    (Tape.new stream : Tape σ κ).Over script stream where
  answers := fun _ _ h => nomatch h
  pulled := (Nat.min_eq_left (Nat.zero_le _)).symm
  stream := rfl
  eof := (if_neg (Nat.not_lt_zero _)).symm

variable {script : Script κ} {stream : σ}

theorem Over.goto {t : Tape σ κ} (h : t.Over script stream) (position : Nat) :
    (t.goto position).Over script stream :=
  ⟨h.answers, h.pulled, h.stream, h.eof⟩

/-- What the tape holds is what the script says. -/
theorem Over.getElem? {t : Tape σ κ} (h : t.Over script stream) {i : Nat} {k : Token κ}
    (hlt : i < t.tokens.length) (hk : script.answer i = .ok k) : t.tokens[i]? = some k := by
  have hanswer := h.answers i _ (List.getElem?_eq_getElem hlt)
  rw [hk] at hanswer
  rw [List.getElem?_eq_getElem hlt, Except.ok.inj hanswer]

/-- A tape that holds enough is filled that far. -/
theorem Over.filled {t : Tape σ κ} (h : t.Over script stream) {length : Nat}
    (hle : length ≤ t.tokens.length) : Filled script stream t t.position length t :=
  ⟨h, rfl, rfl, (Nat.max_eq_left hle).symm⟩

/-- Filled that far and further on, a tape is filled as far as the larger of the two. -/
theorem Filled.trans {t t' t'' : Tape σ κ} {a b l l' : Nat} (h : Filled script stream t a l t')
    (h' : Filled script stream t' b l' t'') : Filled script stream t b (max l l') t'' :=
  ⟨h'.isOver, h'.position, h'.marks.trans h.marks, by rw [h'.length, h.length, Nat.max_assoc]⟩

/-- A tape holds no more than the script says: with an error behind it, at most the ordinary
    tokens. -/
theorem Over.length_le {t : Tape σ κ} (h : t.Over script stream) {e : LexError}
    (he : script.ending = .error e) : t.tokens.length ≤ script.length := by
  rcases Nat.lt_or_ge script.length t.tokens.length with hlt | hge
  · have hanswer := h.answers script.length _ (List.getElem?_eq_getElem hlt)
    rw [Script.answer_of_le (Nat.le_refl _), he] at hanswer
    exact nomatch hanswer
  · exact hge

/-- One more token, as far as the tape's list and its ending are concerned. -/
theorem Over.push {t : Tape σ κ} (h : t.Over script stream) {k : Token κ}
    (hk : script.answer t.tokens.length = .ok k) :
    ∀ i k', (t.tokens ++ [k])[i]? = some k' → script.answer i = .ok k' := by
  intro i k' hi
  rcases Nat.lt_trichotomy i t.tokens.length with hlt | rfl | hgt
  · rw [List.getElem?_append_left hlt] at hi
    exact h.answers i k' hi
  · rw [List.getElem?_concat_length] at hi
    rw [hk, Option.some.inj hi]
  · rw [List.getElem?_eq_none (by rw [List.length_append]; exact hgt)] at hi
    exact nomatch hi

/-- A token that is due is pulled in. -/
theorem pull_over (hs : script.SpokenBy stream) {t : Tape σ κ} (h : t.Over script stream)
    {k : Token κ} (hk : script.answer t.tokens.length = .ok k) :
    ∃ t', pull t = (.ok (), t') ∧
      Filled script stream t t.position (t.tokens.length + 1) t' := by
  have hlen : (t.tokens ++ [k]).length = t.tokens.length + 1 := List.length_append
  have hmax : max t.tokens.length (t.tokens.length + 1) = t.tokens.length + 1 :=
    Nat.max_eq_right (Nat.le_succ _)
  rcases Nat.lt_or_ge script.length t.tokens.length with hlt | hge
  · -- behind the end the last token is repeated
    rw [Script.answer_of_le (Nat.le_of_lt hlt)] at hk
    have heof : t.eof = some k := by
      rw [h.eof, if_pos hlt, hk]
      rfl
    refine ⟨_, pull_of_eof heof, ⟨?_, h.pulled.trans ?_, h.stream, ?_⟩, rfl, rfl, ?_⟩
    · exact h.push ((Script.answer_of_le (Nat.le_of_lt hlt)).trans hk)
    · show _ = min (t.tokens ++ [k]).length _
      rw [hlen]
      omega
    · show t.eof = if script.length < (t.tokens ++ [k]).length then _ else _
      rw [hlen, if_pos (by omega), h.eof, if_pos hlt]
    · show (t.tokens ++ [k]).length = _
      rw [hlen, hmax]
  · have heof : t.eof = none := by
      rw [h.eof, if_neg (by omega)]
    have hpulled : t.pulled = t.tokens.length := by
      rw [h.pulled]
      omega
    have hnext : TokenStream.next t.stream
        = (.ok k, TokenStream.after stream (t.tokens.length + 1)) := by
      have hanswer := hs t.tokens.length hge
      rw [h.stream, hpulled]
      exact Prod.ext (hanswer.trans hk) rfl
    refine ⟨_, pull_of_ok heof hnext, ⟨h.push hk, ?_, ?_, ?_⟩, rfl, rfl, ?_⟩
    · show t.pulled + 1 = min (t.tokens ++ [k]).length _
      rw [hlen, hpulled]
      omega
    · show TokenStream.after stream (t.tokens.length + 1) = TokenStream.after stream (t.pulled + 1)
      rw [hpulled]
    · show (if k.isEof then some k else none)
        = if script.length < (t.tokens ++ [k]).length then script.ending.toOption else none
      rw [hlen]
      rcases Nat.lt_or_ge t.tokens.length script.length with hlt | hge'
      · -- an ordinary token
        rw [Script.answer_of_lt hlt] at hk
        have hord : k.isEof = false :=
          script.ordinary k (Except.ok.inj hk ▸ List.getElem_mem hlt)
        rw [hord, if_neg Bool.false_ne_true, if_neg (by omega)]
      · rw [Script.answer_of_le hge'] at hk
        rw [script.final k hk, if_pos rfl, if_pos (by omega), hk]
        rfl
    · show (t.tokens ++ [k]).length = _
      rw [hlen, hmax]

/-- So are several of them. -/
theorem pullMany_over (hs : script.SpokenBy stream) (count : Nat) {t : Tape σ κ}
    (h : t.Over script stream)
    (hall : ∀ i < t.tokens.length + count, ∃ k, script.answer i = .ok k) :
    ∃ t', pullMany count t = (.ok (), t') ∧
      Filled script stream t t.position (t.tokens.length + count) t' := by
  induction count generalizing t with
  | zero => exact ⟨t, rfl, h.filled (Nat.le_refl _)⟩
  | succ count ih =>
      obtain ⟨k, hk⟩ := hall t.tokens.length (by omega)
      obtain ⟨t₁, hpull, hfilled⟩ := pull_over hs h hk
      have hlen : t₁.tokens.length = t.tokens.length + 1 := by
        rw [hfilled.length]
        omega
      obtain ⟨t₂, hmany, hfilled₂⟩ := ih hfilled.isOver (fun i hi => hall i (by omega))
      refine ⟨t₂, (Run.bind_of_ok hpull).trans hmany, ?_⟩
      have htrans := hfilled.trans hfilled₂
      rw [hfilled.position, hlen] at htrans
      refine ⟨htrans.isOver, htrans.position, htrans.marks, htrans.length.trans ?_⟩
      omega

/-- Where the script ends with an error, the pull that gets there fails. -/
theorem pullMany_error (hs : script.SpokenBy stream) {e : LexError}
    (he : script.ending = .error e) (count : Nat) {t : Tape σ κ} (h : t.Over script stream)
    (hlt : script.length < t.tokens.length + count) :
    ∃ t', pullMany count t = (.error (.failed (.lexical e)), t') := by
  induction count generalizing t with
  | zero =>
      have hle := h.length_le he
      omega
  | succ count ih =>
      have hle := h.length_le he
      rcases Nat.lt_or_ge t.tokens.length script.length with hmore | hend
      · obtain ⟨t₁, hpull, hfilled⟩ := pull_over hs h (Script.answer_of_lt hmore)
        have hlen := hfilled.length
        obtain ⟨t₂, hmany⟩ := ih hfilled.isOver (by omega)
        exact ⟨t₂, (Run.bind_of_ok hpull).trans hmany⟩
      · have heq : t.tokens.length = script.length := Nat.le_antisymm hle hend
        have heof : t.eof = none := by
          rw [h.eof, if_neg (by omega)]
        have hpulled : t.pulled = script.length := by
          rw [h.pulled]
          omega
        have hnext : TokenStream.next t.stream
            = (.error e, (TokenStream.next t.stream).2) := by
          refine Prod.ext ?_ rfl
          rw [h.stream, hpulled]
          exact (hs _ (Nat.le_refl _)).trans ((Script.answer_of_le (Nat.le_refl _)).trans he)
        exact ⟨_, Run.bind_of_error (pull_of_error heof hnext)⟩

/-- Looking at a token of the script fills the tape up to it. -/
theorem peek_over (hs : script.SpokenBy stream) {t : Tape σ κ} (h : t.Over script stream)
    (depth : Nat) {k : Token κ} (hk : script.answer (t.position + depth) = .ok k) :
    ∃ t', peek depth t = (.ok k, t') ∧
      Filled script stream t t.position (t.position + depth + 1) t' := by
  have hall : ∀ i < t.tokens.length + (t.position + (depth + 1) - t.tokens.length),
      t.tokens.length ≤ i → ∃ k', script.answer i = .ok k' := by
    intro i hi hle
    exact Script.answer_ok_of_le (by omega) hk
  have hheld : ∀ i < t.tokens.length, ∃ k', script.answer i = .ok k' := by
    intro i hi
    exact ⟨_, h.answers i _ (List.getElem?_eq_getElem hi)⟩
  obtain ⟨t₁, hfill, hfilled⟩ := pullMany_over hs (t.position + (depth + 1) - t.tokens.length) h
    (fun i hi => (Nat.lt_or_ge i t.tokens.length).elim (hheld i) (hall i hi))
  have hlen : t₁.tokens.length = max t.tokens.length (t.position + depth + 1) := by
    rw [hfilled.length]
    omega
  have hsame : t₁.tokens[t.position + depth]? = some k :=
    hfilled.isOver.getElem? (by omega) hk
  refine ⟨t₁, ?_, hfilled.isOver, hfilled.position, hfilled.marks, hlen⟩
  rw [show peek depth t = _ from Run.bind_of_ok hfill, Run.read_bind, hfilled.position, hsame]
  rfl

/-- Looking at an error of the script fails with it. -/
theorem peek_error (hs : script.SpokenBy stream) {t : Tape σ κ} (h : t.Over script stream)
    (depth : Nat) {e : LexError} (he : script.answer (t.position + depth) = .error e) :
    ∃ t', peek depth t = (.error (.failed (.lexical e)), t') := by
  obtain ⟨hending, hle⟩ := Script.ending_of_answer he
  obtain ⟨t₁, hfill⟩ := pullMany_error hs hending (t.position + (depth + 1) - t.tokens.length) h
    (by omega)
  exact ⟨t₁, Run.bind_of_error hfill⟩

/-- A token on the tape is shown as the script has it. -/
theorem sight_over {t : Tape σ κ} (h : t.Over script stream)
    (hlt : t.position < t.tokens.length) {k : Token κ} (hk : script.answer t.position = .ok k) :
    sight t = (.ok (.ofToken t.position k), t) := by
  have hpeek : peek 0 t = (.ok k, t) := peek_of_held (h.getElem? hlt hk)
  rw [show sight t = _ from Run.bind_of_ok hpeek, Run.read_apply]

/-- A look at what the script has finds its kind. -/
theorem peekKind_over (hs : script.SpokenBy stream) {t : Tape σ κ} (h : t.Over script stream)
    (depth : Nat) {k : Token κ} (hk : script.answer (t.position + depth) = .ok k) :
    ∃ t', peekKind depth t = (.ok k.kind, t') ∧
      Filled script stream t t.position (t.position + depth + 1) t' := by
  obtain ⟨t', hpeek, hfilled⟩ := peek_over hs h depth hk
  exact ⟨t', Run.bind_of_ok hpeek, hfilled⟩

/-- A look at what it breaks off with gives the error. -/
theorem peekKind_error (hs : script.SpokenBy stream) {t : Tape σ κ} (h : t.Over script stream)
    (depth : Nat) {e : LexError} (he : script.answer (t.position + depth) = .error e) :
    ∃ t', peekKind depth t = (.error (.failed (.lexical e)), t') := by
  obtain ⟨t', hpeek⟩ := peek_error hs h depth he
  exact ⟨t', Run.bind_of_error hpeek⟩

/-- A token of the right kind is passed over. -/
theorem expect_over (hs : script.SpokenBy stream) {t : Tape σ κ} (h : t.Over script stream)
    {k : Token κ} (hk : script.answer t.position = .ok k) :
    ∃ t', expect k.kind t = (.ok (), t') ∧
      Filled script stream t (t.position + 1) (t.position + 1) t' := by
  obtain ⟨t₁, hkind, hfilled⟩ := peekKind_over hs h 0 hk
  have hlt : t₁.position < t₁.tokens.length := by
    rw [hfilled.position, hfilled.length]
    omega
  refine ⟨t₁.goto (t.position + 1), ?_, hfilled.isOver.goto _, rfl, hfilled.marks, hfilled.length⟩
  rw [show expect k.kind t = _ from Run.bind_of_ok (Run.bind_of_ok hkind),
    decide_eq_true (Eq.refl k.kind), if_pos rfl, advance_of_held hlt, hfilled.position]

/-- A token of another kind is complained about, and nothing behind it is read. -/
theorem expect_mismatch (hs : script.SpokenBy stream) {t : Tape σ κ} (h : t.Over script stream)
    {kind : κ} {k : Token κ} (hk : script.answer t.position = .ok k) (hne : k.kind ≠ kind) :
    ∃ t', expect kind t = (.error (.failed (.mismatch kind (.ofToken t.position k))), t') ∧
      Filled script stream t t.position (t.position + 1) t' := by
  obtain ⟨t₁, hkind, hfilled⟩ := peekKind_over hs h 0 hk
  refine ⟨t₁, ?_, hfilled⟩
  have hsight : sight t₁ = (.ok (.ofToken t₁.position k), t₁) := by
    refine sight_over hfilled.isOver ?_ (hfilled.position.symm ▸ hk)
    rw [hfilled.position, hfilled.length]
    omega
  rw [hfilled.position] at hsight
  rw [show expect kind t = _ from Run.bind_of_ok (Run.bind_of_ok hkind), decide_eq_false hne,
    if_neg Bool.false_ne_true, Run.bind_of_ok hsight]
  rfl

/-- And expecting a kind there fails with that error. -/
theorem expect_error (hs : script.SpokenBy stream) {t : Tape σ κ} (h : t.Over script stream)
    (kind : κ) {e : LexError} (he : script.answer t.position = .error e) :
    ∃ t', expect kind t = (.error (.failed (.lexical e)), t') := by
  obtain ⟨t', hkind⟩ := peekKind_error hs h 0 he
  exact ⟨t', Run.bind_of_error (Run.bind_of_error hkind)⟩

end Tape

end Packrat
