import Packrat.Proofs.Discipline

/-! # The tape

    A machine that runs parsing expressions the plain way.  It keeps every token it
    was ever given, in one list that is indexed by positions in the stream; its
    marks are such positions; it remembers no rule, and no index is too large for
    it.  Behind the end of the input it repeats the end-of-input token, and it asks
    the stream only for tokens that someone looks at.

    The file defines the machine, says what each operation does, and shows that fuel
    is nothing but a bound: an evaluation that has ended ends in the same way with
    more of it (`Tape.eval_rising`). -/

namespace Packrat

/-- A list of tokens that only grows, with a current position. -/
structure Tape (σ κ : Type) where
  /-- Where the next tokens come from. -/
  stream : σ
  /-- Every token so far, by its position. -/
  tokens : List (Token κ)
  /-- The end-of-input token, once the stream has answered with it. -/
  eof : Option (Token κ)
  /-- The number of tokens that the stream has answered with. -/
  pulled : Nat
  /-- Position of the current token. -/
  position : Nat
  /-- The positions to go back to, the newest first. -/
  marks : List Nat
deriving DecidableEq

/-- A computation over a tape. -/
abbrev Reading (σ κ α : Type) : Type := Run (Tape σ κ) (ParseError κ) α

variable {σ κ ν α β : Type}

namespace Tape

/-- A tape at the beginning of `stream`. -/
def new (stream : σ) : Tape σ κ := ⟨stream, [], none, 0, 0, []⟩

/-- The tape at another position. -/
def goto (t : Tape σ κ) (position : Nat) : Tape σ κ := { t with position }

/-- Notes the position, as the newest of the marks. -/
def mark : Reading σ κ Nat := do
  Run.update fun t => { t with marks := t.position :: t.marks }
  Run.read fun t => t.marks.length

/-- Takes the newest mark off and, with `restore`, goes back to it. -/
def release (restore : Bool) : Reading σ κ Unit := fun t =>
  match t.marks with
  | [] => (.ok (), t)
  | m :: ms => (.ok (), { t with marks := ms, position := if restore then m else t.position })

/-- Runs a rule and goes back, with the mismatch for an answer if there was one. -/
def speculate (rule : Reading σ κ Unit) : Reading σ κ (Option (ParseError κ)) := do
  let _ ← mark
  let outcome ← rule.settle
  release true
  match outcome with
  | .ok () => return none
  | .error e => if e.isMismatch then return some e else Run.fail e

/-- Tells whether a rule matches, and stays. -/
def attempt (rule : Reading σ κ Unit) : Reading σ κ Bool := do
  return (← speculate rule).isNone

variable [TokenStream σ κ] [DecidableEq κ] [TokenKind κ]

/-- Puts one more token on the tape. -/
def pull : Reading σ κ Unit := fun t =>
  match t.eof with
  | some e => (.ok (), { t with tokens := t.tokens ++ [e] })
  | none =>
      match TokenStream.next t.stream with
      | (.error e, stream) => (.error (.failed (.lexical e)), { t with stream })
      | (.ok k, stream) =>
          (.ok (), { t with
            stream
            tokens := t.tokens ++ [k]
            pulled := t.pulled + 1
            eof := if k.isEof then some k else none })

/-- Writes down as many more tokens. -/
def pullMany : Nat → Reading σ κ Unit
  | 0 => pure ()
  | count + 1 => do
      pull
      pullMany count

/-- Makes sure that the tape holds `count` tokens from the current one on. -/
def fill (count : Nat) : Reading σ κ Unit := do
  pullMany (← Run.read fun t => t.position + count - t.tokens.length)

/-- The token at a depth from the current one, read from the stream if it is not there yet. -/
def peek (depth : Nat) : Reading σ κ (Token κ) := do
  fill (depth + 1)
  match ← Run.read fun t => t.tokens[t.position + depth]? with
  | some k => return k
  | none => Run.fault .lookaheadOverflow -- a filled tape holds the token

/-- The kind of that token. -/
def peekKind (depth : Nat) : Reading σ κ κ := do
  return (← peek depth).kind

/-- Tells whether the current token is of a kind. -/
def check (kind : κ) : Reading σ κ Bool := do
  return decide ((← peekKind 0) = kind)

/-- Goes to the next token, and never lets one go. -/
def advance : Reading σ κ Unit := do
  fill 1
  Run.update fun t => t.goto (t.position + 1)

/-- The current token as an error shows it. -/
def sight : Reading σ κ (Sighting κ) := do
  let k ← peek 0
  Run.read fun t => .ofToken t.position k

/-- Steps over a token of a kind, and complains about any other. -/
def expect (kind : κ) : Reading σ κ Unit := do
  if ← check kind then advance
  else Run.fail (.mismatch kind (← sight))

/-- Runs the first alternative that matches, or else complains about the one that got furthest. -/
def chooseFrom (name : String) (furthest : Option (ParseError κ)) :
    List (Reading σ κ Unit) → Reading σ κ Unit
  | [] => do Run.fail (.exhausted name (← sight) furthest)
  | alternative :: rest => do
      match ← speculate alternative with
      | none => alternative
      | some e => chooseFrom name (some (.further furthest e)) rest

/-- Runs an expression on a tape.  What is remembered elsewhere is simply run. -/
def eval (rules : ν → Expr κ ν) : Nat → Expr κ ν → Reading σ κ (Value κ)
  | 0, _ => Run.halt .outOfFuel
  | _ + 1, .done => return .nothing
  | _ + 1, .peek depth => return .token (← peek depth)
  | _ + 1, .peekKind depth => return .kind (← peekKind depth)
  | _ + 1, .check k => return .flag (← check k)
  | _ + 1, .expect k => do
      expect k
      return .nothing
  | _ + 1, .advance => do
      advance
      return .nothing
  | _ + 1, .mark => return .count (← mark)
  | _ + 1, .release restore => do
      release restore
      return .nothing
  | fuel + 1, .attempt body =>
      return .flag (← attempt (discard (eval rules fuel body)))
  | fuel + 1, .choose name alternatives => do
      chooseFrom name none (alternatives.map fun e => discard (eval rules fuel e))
      return .nothing
  | fuel + 1, .memo _ body => do
      discard (eval rules fuel body)
      return .nothing
  | fuel + 1, .seq first second => do
      discard (eval rules fuel first)
      discard (eval rules fuel second)
      return .nothing
  | fuel + 1, .cond k depth yes no => do
      if (← peekKind depth) = k then eval rules fuel yes else eval rules fuel no
  | fuel + 1, .loop k body => do
      if ← check k then
        discard (eval rules fuel body)
        eval rules fuel (.loop k body)
      else return .nothing
  | fuel + 1, .trial guard yes no => do
      if ← attempt (discard (eval rules fuel guard)) then eval rules fuel yes
      else eval rules fuel no
  | fuel + 1, .call name => eval rules fuel (rules name)

/-- Runs the operations one after the other, with `fuel` for each. -/
def session (rules : ν → Expr κ ν) (fuel : Nat) (ops : List (Expr κ ν)) (t : Tape σ κ) :
    List (Except (Halt (ParseError κ)) (Value κ) × Tape σ κ) :=
  Run.session (ops.map (eval rules fuel)) t

/-! ## What the operations do -/

/-- The second tape is the first one with more tokens on it. -/
structure Grows (t t' : Tape σ κ) : Prop where
  position : t'.position = t.position
  marks : t'.marks = t.marks
  tokens : t.tokens <+: t'.tokens

omit [TokenStream σ κ] [DecidableEq κ] [TokenKind κ] in
theorem Grows.refl (t : Tape σ κ) : t.Grows t := ⟨rfl, rfl, List.prefix_rfl⟩

omit [TokenStream σ κ] [DecidableEq κ] [TokenKind κ] in
/-- What has been written down once stays written. -/
theorem Grows.trans {t t' t'' : Tape σ κ} (h : t.Grows t') (h' : t'.Grows t'') : t.Grows t'' :=
  ⟨h'.position.trans h.position, h'.marks.trans h.marks, h.tokens.trans h'.tokens⟩

/-- Behind the end of the input the tape repeats its last token. -/
theorem pull_of_eof {t : Tape σ κ} {e : Token κ} (he : t.eof = some e) :
    pull t = (.ok (), { t with tokens := t.tokens ++ [e] }) := by
  rw [pull, he]

/-- A complaint of the stream writes down nothing. -/
theorem pull_of_error {t : Tape σ κ} {e : LexError} {stream : σ} (he : t.eof = none)
    (hn : TokenStream.next t.stream = (.error e, stream)) :
    pull t = (.error (.failed (.lexical e)), { t with stream }) := by
  rw [pull, he, hn]

/-- A token that the stream gives is written down, and remembered if it is the last. -/
theorem pull_of_ok {t : Tape σ κ} {k : Token κ} {stream : σ} (he : t.eof = none)
    (hn : TokenStream.next t.stream = (.ok k, stream)) :
    pull t = (.ok (), { t with
      stream
      tokens := t.tokens ++ [k]
      pulled := t.pulled + 1
      eof := if k.isEof then some k else none }) := by
  rw [pull, he, hn]

/-- A pull writes down one token, or passes on a complaint. -/
theorem pull_spec (t : Tape σ κ) :
    (∃ t', pull t = (.ok (), t') ∧ t.Grows t' ∧ t'.tokens.length = t.tokens.length + 1) ∨
      ∃ e t', pull t = (.error (.failed (.lexical e)), t') ∧ t.Grows t' := by
  cases he : t.eof with
  | some e =>
      exact Or.inl ⟨_, pull_of_eof he, ⟨rfl, rfl, List.prefix_append _ _⟩, List.length_append⟩
  | none =>
      rcases hn : TokenStream.next t.stream with ⟨e | k, stream⟩
      · exact Or.inr ⟨e, _, pull_of_error he hn, ⟨rfl, rfl, List.prefix_rfl⟩⟩
      · exact Or.inl ⟨_, pull_of_ok he hn, ⟨rfl, rfl, List.prefix_append _ _⟩, List.length_append⟩

/-- As many tokens are written down as were asked for, up to the first complaint. -/
theorem pullMany_spec (count : Nat) (t : Tape σ κ) :
    (∃ t', pullMany count t = (.ok (), t') ∧ t.Grows t' ∧
        t'.tokens.length = t.tokens.length + count) ∨
      ∃ e t', pullMany count t = (.error (.failed (.lexical e)), t') ∧ t.Grows t' := by
  induction count generalizing t with
  | zero => exact Or.inl ⟨t, rfl, Grows.refl t, rfl⟩
  | succ count ih =>
      rcases pull_spec t with ⟨t₁, hp, hg, hs⟩ | ⟨e, t₁, hp, hg⟩
      · rw [show pullMany (count + 1) t = pullMany count t₁ from Run.bind_of_ok hp]
        rcases ih t₁ with ⟨t₂, hp', hg', hs'⟩ | ⟨e, t₂, hp', hg'⟩
        · exact Or.inl ⟨t₂, hp', hg.trans hg', by omega⟩
        · exact Or.inr ⟨e, t₂, hp', hg.trans hg'⟩
      · exact Or.inr ⟨e, t₁, Run.bind_of_error hp, hg⟩

/-- A filled tape reaches as far as was asked for. -/
theorem fill_spec (count : Nat) (t : Tape σ κ) :
    (∃ t', fill count t = (.ok (), t') ∧ t.Grows t' ∧ t.position + count ≤ t'.tokens.length) ∨
      ∃ e t', fill count t = (.error (.failed (.lexical e)), t') ∧ t.Grows t' := by
  rw [show fill count t = pullMany (t.position + count - t.tokens.length) t from rfl]
  rcases pullMany_spec (t.position + count - t.tokens.length) t with
    ⟨t₁, hp, hg, hs⟩ | ⟨e, t₁, hp, hg⟩
  · exact Or.inl ⟨t₁, hp, hg, by omega⟩
  · exact Or.inr ⟨e, t₁, hp, hg⟩

/-- A tape that holds enough is left alone. -/
theorem fill_of_le {count : Nat} {t : Tape σ κ} (h : t.position + count ≤ t.tokens.length) :
    fill count t = (.ok (), t) := by
  rw [show fill count t = pullMany (t.position + count - t.tokens.length) t from rfl,
    Nat.sub_eq_zero_of_le h]
  rfl

/-- What a look finds stands on the tape at that depth. -/
theorem peek_spec (depth : Nat) (t : Tape σ κ) :
    (∃ k t', peek depth t = (.ok k, t') ∧ t.Grows t' ∧ t'.tokens[t.position + depth]? = some k) ∨
      ∃ e t', peek depth t = (.error (.failed (.lexical e)), t') ∧ t.Grows t' := by
  rcases fill_spec (depth + 1) t with ⟨t₁, hp, hg, hs⟩ | ⟨e, t₁, hp, hg⟩
  · have htok := List.getElem?_eq_getElem (show t.position + depth < t₁.tokens.length by omega)
    refine Or.inl ⟨_, t₁, ?_, hg, htok⟩
    rw [show peek depth t = _ from Run.bind_of_ok hp, Run.read_bind, hg.position, htok]
    rfl
  · exact Or.inr ⟨e, t₁, Run.bind_of_error hp, hg⟩

/-- A token on the tape is seen without a question to the stream. -/
theorem peek_of_held {depth : Nat} {t : Tape σ κ} {k : Token κ}
    (h : t.tokens[t.position + depth]? = some k) : peek depth t = (.ok k, t) := by
  obtain ⟨hlt, -⟩ := List.getElem?_eq_some_iff.mp h
  rw [show peek depth t = _ from Run.bind_of_ok (fill_of_le (by omega)), Run.read_bind, h]
  rfl

/-- A step goes behind a token that is on the tape by then. -/
theorem advance_spec (t : Tape σ κ) :
    (∃ t', advance t = (.ok (), t'.goto (t.position + 1)) ∧ t.Grows t' ∧
        t.position < t'.tokens.length) ∨
      ∃ e t', advance t = (.error (.failed (.lexical e)), t') ∧ t.Grows t' := by
  rcases fill_spec 1 t with ⟨t₁, hp, hg, hs⟩ | ⟨e, t₁, hp, hg⟩
  · refine Or.inl ⟨t₁, ?_, hg, hs⟩
    rw [show advance t = _ from Run.bind_of_ok hp, ← hg.position]
    rfl
  · exact Or.inr ⟨e, t₁, Run.bind_of_error hp, hg⟩

/-- Over a token that is there already the step is made without the stream. -/
theorem advance_of_held {t : Tape σ κ} (h : t.position < t.tokens.length) :
    advance t = (.ok (), t.goto (t.position + 1)) := by
  rw [show advance t = _ from Run.bind_of_ok (fill_of_le h)]
  rfl

end Tape

/-! ## Fuel is a bound and nothing else -/

/-- Wherever the first computation does not run out of fuel, the second does the same. -/
def Run.Below {S ε α : Type} (m m' : Run S ε α) : Prop :=
  ∀ s, (m s).1 = .error .outOfFuel ∨ m' s = m s

namespace Run.Below

variable {S ε : Type}

/-- Every run is below itself. -/
theorem refl (m : Run S ε α) : m.Below m := fun _ => Or.inr rfl

/-- Where the lower run ends, so do both of the others. -/
theorem trans {m m' m'' : Run S ε α} (h : m.Below m') (h' : m'.Below m'') : m.Below m'' := by
  intro s
  rcases h s with hout | heq
  · exact Or.inl hout
  · rcases h' s with hout | heq'
    · exact Or.inl (heq ▸ hout)
    · exact Or.inr (heq'.trans heq)

/-- A run in two parts ends where both parts do. -/
theorem bind {m m' : Run S ε α} {f f' : α → Run S ε β} (hm : m.Below m')
    (hf : ∀ a, (f a).Below (f' a)) : (m >>= f).Below (m' >>= f') := by
  intro s
  rcases hr : m s with ⟨r, s₁⟩
  -- either the first part has run out of fuel, or more fuel makes no difference to it
  rcases hm s with hout | heq
  · rw [hr] at hout
    obtain rfl : r = .error .outOfFuel := hout
    rw [bind_of_error hr]
    exact Or.inl rfl
  · rw [hr] at heq
    cases r with
    | ok a =>
        rw [bind_of_ok hr, bind_of_ok heq]
        exact hf a s₁
    | error e =>
        rw [bind_of_error hr, bind_of_error heq]
        exact Or.inr rfl

/-- Forgetting the answer changes nothing about how a run ends. -/
theorem discard {m m' : Run S ε α} (h : m.Below m') :
    (Functor.discard m : Run S ε PUnit).Below (Functor.discard m') :=
  h.bind fun _ => refl _

/-- Settling catches complaints, and fuel is none of them. -/
theorem settle {m m' : Run S ε α} (h : m.Below m') : m.settle.Below m'.settle := by
  intro s
  rcases h s with hout | heq
  · rcases hr : m s with ⟨r, s₁⟩
    rw [hr] at hout
    obtain rfl : r = .error .outOfFuel := hout
    rw [settle_of_outOfFuel hr]
    exact Or.inl rfl
  · exact Or.inr (by rw [Run.settle, Run.settle, heq])

/-- The same branch is taken on both sides. -/
theorem ite {c : Prop} [Decidable c] {m₁ m₁' m₂ m₂' : Run S ε α} (h₁ : m₁.Below m₁')
    (h₂ : m₂.Below m₂') : (if c then m₁ else m₂).Below (if c then m₁' else m₂') := by
  by_cases hc : c
  · rw [if_pos hc, if_pos hc]
    exact h₁
  · rw [if_neg hc, if_neg hc]
    exact h₂

end Run.Below

namespace Tape

open Run Run.Below

/-- More fuel for a rule is more fuel for speculating on it. -/
theorem below_speculate {m m' : Reading σ κ Unit} (h : m.Below m') :
    (speculate m).Below (speculate m') :=
  (Below.refl _).bind fun _ => h.settle.bind fun _ => Below.refl _

/-- And for attempting it. -/
theorem below_attempt {m m' : Reading σ κ Unit} (h : m.Below m') :
    (attempt m).Below (attempt m') :=
  (below_speculate h).bind fun _ => Below.refl _

variable [TokenStream σ κ] [DecidableEq κ] [TokenKind κ]

/-- Alternative by alternative, what ends with less fuel ends alike with more. -/
theorem below_chooseFrom (name : String) {es : List (Expr κ ν)}
    {f f' : Expr κ ν → Reading σ κ Unit} (h : ∀ e, (f e).Below (f' e))
    (furthest : Option (ParseError κ)) :
    (chooseFrom name furthest (es.map f)).Below (chooseFrom name furthest (es.map f')) := by
  induction es generalizing furthest with
  | nil => exact Below.refl _
  | cons e es ih =>
      refine (below_speculate (h e)).bind ?_
      intro outcome
      cases outcome with
      | none => exact h e
      | some error => exact ih _

/-- One more unit of fuel changes nothing but an exhausted bound. -/
theorem eval_below_succ (rules : ν → Expr κ ν) (n : Nat) (e : Expr κ ν) :
    (eval rules n e : Reading σ κ (Value κ)).Below (eval rules (n + 1) e) := by
  -- on the fuel: a part that has run out before gets one unit more, like the whole
  induction n generalizing e with
  | zero => exact fun _ => Or.inl rfl
  | succ n ih =>
      cases e with
      | attempt body => exact (below_attempt (ih body).discard).bind fun _ => Below.refl _
      | choose name es =>
          exact (below_chooseFrom name (fun e => (ih e).discard) none).bind fun _ => Below.refl _
      | memo name body => exact (ih body).discard.bind fun _ => Below.refl _
      | seq first second =>
          exact (ih first).discard.bind fun _ => (ih second).discard.bind fun _ => Below.refl _
      | cond k depth yes no => exact (Below.refl _).bind fun _ => Below.ite (ih yes) (ih no)
      | loop k body =>
          refine (Below.refl _).bind fun _ => Below.ite ?_ (Below.refl _)
          exact (ih body).discard.bind fun _ => ih (.loop k body)
      | trial guard yes no =>
          exact (below_attempt (ih guard).discard).bind fun _ => Below.ite (ih yes) (ih no)
      | call name => exact ih (rules name)
      | _ => exact Below.refl _

end Tape

/-- A family of computations that more fuel does not change once they end. -/
def Run.Rising {S ε α : Type} (M : Nat → Run S ε α) : Prop := ∀ k k', k ≤ k' → (M k).Below (M k')

namespace Run.Rising

variable {S ε : Type}

/-- What has ended ends in the same way with more fuel, and with less fuel it ends so or not at
    all. -/
theorem or_eq {M : Nat → Run S ε α} (h : Rising M) {k : Nat} {s s' : S}
    {r : Except (Halt ε) α} (hM : M k s = (r, s')) (hr : isSettled r = true) (n : Nat) :
    (n < k ∧ (M n s).1 = .error .outOfFuel) ∨ M n s = (r, s') := by
  rcases Nat.lt_or_ge n k with hlt | hge
  · rcases h n k (Nat.le_of_lt hlt) s with hout | heq
    · exact Or.inl ⟨hlt, hout⟩
    · exact Or.inr (heq.symm.trans hM)
  · rcases h k n hge s with hout | heq
    · rw [hM] at hout
      obtain rfl : r = .error .outOfFuel := hout
      exact nomatch hr
    · exact Or.inr (heq.trans hM)

/-- What has ended is what it will be with any more fuel. -/
theorem eq_of_le {M : Nat → Run S ε α} (h : Rising M) {k k' : Nat} {s s' : S}
    {r : Except (Halt ε) α} (hM : M k s = (r, s')) (hr : isSettled r = true) (hk : k ≤ k') :
    M k' s = (r, s') := by
  rcases h.or_eq hM hr k' with ⟨hlt, -⟩ | heq
  · omega
  · exact heq

/-- What does not ask for fuel ends the same with any. -/
theorem const (m : Run S ε α) : Rising fun _ => m := fun _ _ _ => Below.refl m

/-- Fuel is handed to both parts of a run. -/
theorem bind {M : Nat → Run S ε α} {F : Nat → α → Run S ε β} (hM : Rising M)
    (hF : ∀ a, Rising fun k => F k a) : Rising fun k => M k >>= F k :=
  fun k k' hk => (hM k k' hk).bind fun a => hF a k k' hk

/-- Settled or not, the run underneath is the same. -/
theorem settle {M : Nat → Run S ε α} (hM : Rising M) : Rising fun k => (M k).settle :=
  fun k k' hk => (hM k k' hk).settle

end Run.Rising

/-- **Fuel is a bound**: an evaluation that has ended ends in the same way with more of it. -/
theorem Tape.eval_rising [TokenStream σ κ] [DecidableEq κ] [TokenKind κ] (rules : ν → Expr κ ν)
    (e : Expr κ ν) : Run.Rising fun k => (Tape.eval rules k e : Reading σ κ (Value κ)) := by
  intro k k' hk
  induction hk with
  | refl => exact Run.Below.refl _
  | step _ ih => exact ih.trans (eval_below_succ rules _ e)

end Packrat
