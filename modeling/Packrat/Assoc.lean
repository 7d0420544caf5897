/-! # Association lists

    A finite map as a list of keys with their values.  `put` keeps every key at the
    place where it first came in, so a map built by `put` from the empty one holds
    each key once. -/

namespace Packrat

/-- Keys with their values. -/
abbrev Assoc (α β : Type) := List (α × β)

namespace Assoc

variable {α β : Type} [DecidableEq α]

/-- The value of a key. -/
def get? (k : α) : Assoc α β → Option β
  | [] => none
  | (k', v) :: rest => if k' = k then some v else get? k rest

/-- Gives a key a value, in the place of the one it had. -/
def put (k : α) (v : β) : Assoc α β → Assoc α β
  | [] => [(k, v)]
  | (k', v') :: rest => if k' = k then (k, v) :: rest else (k', v') :: put k v rest

@[simp] theorem get?_nil (k : α) : get? k ([] : Assoc α β) = none := rfl

/-- The key is found in front. -/
theorem get?_cons_self (k : α) (v : β) (t : Assoc α β) : get? k ((k, v) :: t) = some v := if_pos rfl

theorem get?_cons_of_ne {k k' : α} (h : k' ≠ k) (v : β) (t : Assoc α β) :
    get? k ((k', v) :: t) = get? k t := if_neg h

/-- The key has a value in front, and that is where the new one goes. -/
theorem put_cons_self (k : α) (v v' : β) (t : Assoc α β) :
    put k v ((k, v') :: t) = (k, v) :: t := if_pos rfl

theorem put_cons_of_ne {k k' : α} (h : k' ≠ k) (v v' : β) (t : Assoc α β) :
    put k v ((k', v') :: t) = (k', v') :: put k v t := if_neg h

@[simp] theorem get?_put_self (k : α) (v : β) (t : Assoc α β) : get? k (put k v t) = some v := by
  induction t with
  | nil => exact get?_cons_self k v []
  | cons p t ih =>
      obtain ⟨k', v'⟩ := p
      by_cases hk : k' = k
      · subst hk
        rw [put_cons_self, get?_cons_self]
      · rw [put_cons_of_ne hk, get?_cons_of_ne hk, ih]

/-- The other keys keep their values. -/
theorem get?_put_of_ne {k k' : α} (h : k ≠ k') (v : β) (t : Assoc α β) :
    get? k' (put k v t) = get? k' t := by
  induction t with
  | nil => exact get?_cons_of_ne h v []
  | cons p t ih =>
      obtain ⟨key, v'⟩ := p
      by_cases hput : key = k
      · subst hput
        rw [put_cons_self, get?_cons_of_ne h, get?_cons_of_ne h]
      · rw [put_cons_of_ne hput]
        by_cases hget : key = k'
        · subst hget
          rw [get?_cons_self, get?_cons_self]
        · rw [get?_cons_of_ne hget, get?_cons_of_ne hget, ih]

/-- The values of a map can be changed one by one. -/
theorem get?_map {γ : Type} (f : β → γ) (k : α) (t : Assoc α β) :
    get? k (t.map fun (k', v) => (k', f v)) = (get? k t).map f := by
  induction t with
  | nil => rfl
  | cons p t ih =>
      obtain ⟨k', v⟩ := p
      rw [List.map_cons]
      by_cases hk : k' = k
      · subst hk
        rw [get?_cons_self, get?_cons_self, Option.map_some]
      · rw [get?_cons_of_ne hk, get?_cons_of_ne hk, ih]

/-- The values of the keys that are kept stay. -/
theorem get?_filter (keep : α → Bool) (k : α) (t : Assoc α β) :
    get? k (t.filter fun (k', _) => keep k') = if keep k then get? k t else none := by
  induction t with
  | nil => rw [List.filter_nil, get?_nil, ite_self]
  | cons p t ih =>
      obtain ⟨k', v⟩ := p
      cases hkeep : keep k' with
      | true =>
          have hfilter : ((k', v) :: t).filter (fun (key, _) => keep key) =
              (k', v) :: t.filter fun (key, _) => keep key := List.filter_cons_of_pos hkeep
          rw [hfilter]
          by_cases hk : k' = k
          · subst hk
            rw [get?_cons_self, get?_cons_self, hkeep, if_pos rfl]
          · rw [get?_cons_of_ne hk, get?_cons_of_ne hk, ih]
      | false =>
          have hfilter : ((k', v) :: t).filter (fun (key, _) => keep key) =
              t.filter fun (key, _) => keep key :=
            List.filter_cons_of_neg (Bool.eq_false_iff.mp hkeep)
          rw [hfilter, ih]
          by_cases hk : k' = k
          · subst hk
            rw [hkeep, if_neg Bool.false_ne_true, if_neg Bool.false_ne_true]
          · rw [get?_cons_of_ne hk]

end Assoc

end Packrat
