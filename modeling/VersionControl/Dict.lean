/-!
# Sorted dictionaries

A finite map from texts, held as entries in strictly ascending byte order. Main statements: what a look-up
answers after an insertion or a removal, and that two dictionaries with the same answers are equal.
-/

namespace VersionControl

/-- A finite map from texts, its entries in strictly ascending byte order of their keys. -/
structure Dict (α : Type) where
  entries : List (String × α)
  ascending : entries.Pairwise (fun a b => a.1 < b.1)

namespace Dict

variable {α β : Type}

instance [DecidableEq α] : DecidableEq (Dict α) := fun a b =>
  decidable_of_iff (a.entries = b.entries) (by cases a; cases b; simp)

def empty : Dict α := ⟨[], .nil⟩

instance : EmptyCollection (Dict α) := ⟨empty⟩

instance : Inhabited (Dict α) := ⟨empty⟩

def isEmpty (d : Dict α) : Bool := d.entries.isEmpty

def size (d : Dict α) : Nat := d.entries.length

def keys (d : Dict α) : List String := d.entries.map (·.1)

def find? (key : String) : List (String × α) → Option α
  | [] => none
  | (k, v) :: rest => if k = key then some v else find? key rest

def get? (d : Dict α) (key : String) : Option α := find? key d.entries

def contains (d : Dict α) (key : String) : Bool := (d.get? key).isSome

/-- The entries with `value` under `key`: put before the first greater key, or in the place of `key`. -/
def put (key : String) (value : α) : List (String × α) → List (String × α)
  | [] => [(key, value)]
  | (k, v) :: rest =>
    if key < k then (key, value) :: (k, v) :: rest
    else if key = k then (key, value) :: rest
    else (k, v) :: put key value rest

theorem mem_put {key : String} {value : α} {es : List (String × α)} {e : String × α}
    (h : e ∈ put key value es) : e = (key, value) ∨ e ∈ es := by
  induction es with
  | nil => simpa [put] using h
  | cons x rest ih =>
    simp only [put] at h
    split at h
    · simpa using h
    · split at h
      · rcases List.mem_cons.1 h with h | h
        · exact .inl h
        · exact .inr (List.mem_cons_of_mem _ h)
      · rcases List.mem_cons.1 h with h | h
        · exact .inr (h ▸ List.mem_cons_self)
        · exact (ih h).imp_right (List.mem_cons_of_mem _)

theorem put_ascending {key : String} {value : α} {es : List (String × α)}
    (h : es.Pairwise (fun a b => a.1 < b.1)) :
    (put key value es).Pairwise (fun a b => a.1 < b.1) := by
  induction es with
  | nil => simp [put]
  | cons x rest ih =>
    obtain ⟨hx, hrest⟩ := List.pairwise_cons.1 h
    simp only [put]
    split
    · rename_i hlt
      refine List.pairwise_cons.2 ⟨fun e he => ?_, h⟩
      rcases List.mem_cons.1 he with rfl | he
      · exact hlt
      · exact String.lt_trans hlt (hx e he)
    · split
      · rename_i heq
        exact List.pairwise_cons.2 ⟨fun e he => heq ▸ hx e he, hrest⟩
      · rename_i hlt hne
        refine List.pairwise_cons.2 ⟨fun e he => ?_, ih hrest⟩
        rcases mem_put he with rfl | he
        · exact String.not_le.1 fun hle =>
            hne (String.le_antisymm hle (String.not_lt.1 hlt))
        · exact hx e he

def insert (d : Dict α) (key : String) (value : α) : Dict α :=
  ⟨put key value d.entries, put_ascending d.ascending⟩

def erase (d : Dict α) (key : String) : Dict α :=
  ⟨d.entries.filter (fun e => e.1 ≠ key), d.ascending.filter _⟩

def ofList (entries : List (String × α)) : Dict α :=
  entries.foldl (fun d e => d.insert e.1 e.2) empty

def map (f : α → β) (d : Dict α) : Dict β :=
  ⟨d.entries.map (fun e => (e.1, f e.2)), by
    simpa [List.pairwise_map] using d.ascending⟩

/-- Puts a value under a key; `f` joins it with one that is there already. -/
def insertWith (f : String → α → α → α) (d : Dict α) (key : String) (value : α) : Dict α :=
  d.insert key (match d.get? key with
    | some present => f key present value
    | none => value)

/-- The entries of either side; `f` joins the two values of a shared key. -/
def unionWith (f : String → α → α → α) (a b : Dict α) : Dict α :=
  b.entries.foldl (fun d e => d.insertWith f e.1 e.2) a

/-! ## Look-ups -/

theorem ext_entries {a b : Dict α} (h : a.entries = b.entries) : a = b := by
  cases a; cases b; simpa using h

@[simp] theorem get?_empty (key : String) : (empty : Dict α).get? key = none := rfl

theorem find?_put (key : String) (value : α) (es : List (String × α)) (k : String) :
    find? k (put key value es) = if key = k then some value else find? k es := by
  induction es with
  | nil => simp [put, find?]
  | cons x rest ih =>
    simp only [put]
    split
    · simp [find?]
    · split
      · rename_i heq
        simp only [find?, ← heq]
        split <;> rfl
      · rename_i hne
        simp only [find?, ih]
        split
        · rename_i hk
          rw [if_neg (hk ▸ hne)]
        · rfl

@[simp] theorem get?_insert (d : Dict α) (key : String) (value : α) (k : String) :
    (d.insert key value).get? k = if key = k then some value else d.get? k :=
  find?_put key value d.entries k

theorem find?_filter_ne (key : String) (es : List (String × α)) (k : String) :
    find? k (es.filter (fun e => e.1 ≠ key)) = if key = k then none else find? k es := by
  induction es with
  | nil => simp [find?]
  | cons x rest ih =>
    by_cases hx : x.1 = key
    · rw [List.filter_cons_of_neg (by simpa using hx), ih]
      simp only [find?, hx]
      split <;> rfl
    · rw [List.filter_cons_of_pos (by simpa using hx)]
      simp only [find?, ih]
      split
      · rename_i hk
        rw [if_neg (hk ▸ Ne.symm hx)]
      · rfl

@[simp] theorem get?_erase (d : Dict α) (key : String) (k : String) :
    (d.erase key).get? k = if key = k then none else d.get? k :=
  find?_filter_ne key d.entries k

theorem find?_eq_none_of_forall_lt {es : List (String × α)} {k : String}
    (h : ∀ e ∈ es, k < e.1) : find? k es = none := by
  induction es with
  | nil => rfl
  | cons x rest ih =>
    have hne : x.1 ≠ k := fun he => String.lt_irrefl _ (he ▸ h x List.mem_cons_self)
    simp only [find?, if_neg hne]
    exact ih fun e he => h e (List.mem_cons_of_mem _ he)

theorem eq_of_find?_eq {es fs : List (String × α)} (he : es.Pairwise (fun a b => a.1 < b.1))
    (hf : fs.Pairwise (fun a b => a.1 < b.1)) (h : ∀ k, find? k es = find? k fs) : es = fs := by
  induction es generalizing fs with
  | nil =>
    cases fs with
    | nil => rfl
    | cons y fs => exact absurd (h y.1) (by simp [find?])
  | cons x es ih =>
    cases fs with
    | nil => exact absurd (h x.1) (by simp [find?])
    | cons y fs =>
      obtain ⟨hx, hes⟩ := List.pairwise_cons.1 he
      obtain ⟨hy, hfs⟩ := List.pairwise_cons.1 hf
      have below {k : String} {g : String × α} {gs : List (String × α)} (hk : k < g.1)
          (hg : ∀ e ∈ gs, g.1 < e.1) : find? k (g :: gs) = none :=
        find?_eq_none_of_forall_lt fun e he => by
          rcases List.mem_cons.1 he with rfl | he
          · exact hk
          · exact String.lt_trans hk (hg e he)
      have hkey : x.1 = y.1 := String.le_antisymm
        (String.not_lt.1 fun hlt => absurd ((h y.1).symm.trans (below hlt hx)) (by simp [find?]))
        (String.not_lt.1 fun hlt => absurd ((h x.1).trans (below hlt hy)) (by simp [find?]))
      have hval : x.2 = y.2 := by simpa [find?, hkey] using h y.1
      obtain rfl : x = y := Prod.ext hkey hval
      rw [ih hes hfs fun k => ?_]
      by_cases hk : x.1 = k
      · subst hk
        rw [find?_eq_none_of_forall_lt hx, find?_eq_none_of_forall_lt hy]
      · simpa [find?, hk] using h k

theorem ext_get? {a b : Dict α} (h : ∀ k, a.get? k = b.get? k) : a = b :=
  ext_entries (eq_of_find?_eq a.ascending b.ascending h)

theorem keys_ascending (d : Dict α) : d.keys.Pairwise (· < ·) :=
  List.pairwise_map.2 d.ascending

end Dict

end VersionControl
