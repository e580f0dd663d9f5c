import VersionControl.Proofs.Ref.Resolution

/-!
# Changing one ref

In memory the refs are a map from names to texts, and HEAD is one more way to one of them. To point a ref somewhere or
to delete it shows in what is answered about it, and about HEAD if HEAD names it, and nowhere else.
-/

namespace VersionControl.Ref

variable {store after : MemoryStore} {name text : String}

/-! ## Refs that are there -/

def IsListed (store : MemoryStore) (name : String) : Prop := ∃ listed, names store = .ok listed ∧ name ∈ listed

theorem isListed_iff : IsListed store name ↔ ∃ content, store.objects.get? (key name) = some content := by
  have hlisted : names store = .ok ((store.keys directory).map (Text.dropStart directory)) := rfl
  rw [IsListed, hlisted]
  constructor
  · rintro ⟨_, hnames, hmem⟩
    cases hnames
    obtain ⟨stored, hstored, rfl⟩ := List.mem_map.1 hmem
    obtain ⟨hget, hstart⟩ := MemoryStore.mem_keys.1 hstored
    obtain ⟨name, rfl⟩ := startsWith_directory_iff.1 hstart
    rwa [dropStart_key]
  · intro hget
    refine ⟨_, rfl, List.mem_map.2 ⟨key name, ?_, dropStart_key name⟩⟩
    exact MemoryStore.mem_keys.2 ⟨hget, startsWith_directory_iff.2 ⟨name, rfl⟩⟩

theorem isListed_of_get?_eq (hget : after.objects.get? (key name) = store.objects.get? (key name)) :
    IsListed after name ↔ IsListed store name := by
  rw [isListed_iff, isListed_iff, hget]

theorem isStored_of_get?_eq (hhead : after.objects.get? Head.name = store.objects.get? Head.name)
    (hget : after.objects.get? (key name) = store.objects.get? (key name)) :
    isStored after name = isStored store name := by
  rw [isStored, isStored, MemoryStore.has_congr hhead, MemoryStore.has_congr hget]

theorem isStored_of_ne_head (hname : name ≠ Head.name) :
    isStored store name = true ↔ ∃ content, store.objects.get? (key name) = some content := by
  rw [isStored, if_neg hname, MemoryStore.has_iff]

/-! ## Answers -/

/-- What is answered about a ref that is given a text: it resolves to what is left of the text without the blanks and
line ends behind it, or to nothing if nothing is left. -/
structure PointsTo (store : MemoryStore) (name text : String) : Prop where
  resolve : (∃ pointer tail, text = pointer ++ tail ∧ IsBare pointer ∧ IsBlank tail ∧
      Ref.resolve store name = .ok pointer) ∨
    IsBlank text ∧ Ref.resolve store name = .error (.refNotFound name)
  isStored : Ref.isStored store name = true
  isListed : IsListed store name

structure IsAbsent (store : MemoryStore) (name : String) : Prop where
  resolve : Ref.resolve store name = .error (.refNotFound name)
  isStored : Ref.isStored store name = false
  not_isListed : ¬IsListed store name

theorem pointsTo_of_get? (hname : name ≠ Head.name) (hget : store.objects.get? (key name) = some (text ++ "\n")) :
    PointsTo store name text where
  resolve := by
    rw [resolve_of_ne_head hname]
    rcases readPointer_cases store (.branch name) with ⟨content, hcontent, hbare, hread⟩ | ⟨hvoid, hread⟩
    · cases hget.symm.trans hcontent
      rw [trimPointer_newline] at hbare hread
      obtain ⟨tail, htext, htail⟩ := Text.exists_eq_trimEndWhile_append isTrailingBlank text
      exact .inl ⟨trimPointer text, tail, htext, hbare, fun c hc => isTrailingBlank_iff.1 (htail c hc), hread⟩
    · exact .inr ⟨isBlank_newline_iff.1 (hvoid _ hget), hread⟩
  isStored := (isStored_of_ne_head hname).2 ⟨_, hget⟩
  isListed := isListed_iff.2 ⟨_, hget⟩

theorem isAbsent_of_get? (hname : name ≠ Head.name) (hget : store.objects.get? (key name) = none) :
    IsAbsent store name where
  resolve := by
    rw [resolve_of_ne_head hname]
    rcases readPointer_cases store (.branch name) with ⟨content, hcontent, -, -⟩ | ⟨-, hread⟩
    · cases hget.symm.trans hcontent
    · exact hread
  isStored := by
    rw [Bool.eq_false_iff, Ne, isStored_of_ne_head hname, hget]
    simp
  not_isListed := by
    rw [isListed_iff, hget]
    simp

/-- What is answered about other refs stays, and about HEAD too, unless it names the ref. -/
structure ChangesOnlyRef (name : String) (store after : MemoryStore) : Prop where
  resolve : ∀ other, other ≠ Head.name → other ≠ name → Ref.resolve after other = Ref.resolve store other
  isStored : ∀ other, other ≠ name → Ref.isStored after other = Ref.isStored store other
  isListed : ∀ other, other ≠ name → (IsListed after other ↔ IsListed store other)
  head : Ref.head after = Ref.head store
  resolve_head : Ref.head store ≠ .ok (.symbolic name) → Ref.resolve after Head.name = Ref.resolve store Head.name
  resolve_head_of_symbolic : Ref.head store = .ok (.symbolic name) →
    Ref.resolve after Head.name = Ref.resolve after name

theorem changesOnlyRef_of_get? (hname : name ≠ Head.name)
    (h : ∀ key, key ≠ Ref.key name → after.objects.get? key = store.objects.get? key) :
    ChangesOnlyRef name store after := by
  have hhead := h Head.name (key_ne_head name).symm
  have hother {other : String} (hne : other ≠ name) :
      after.objects.get? (key other) = store.objects.get? (key other) :=
    h (key other) fun heq => hne (key_injective heq)
  refine ⟨fun other hnotHead hne => resolve_of_get?_eq hnotHead (hother hne),
    fun other hne => isStored_of_get?_eq hhead (hother hne), fun other hne => isListed_of_get?_eq (hother hne),
    head_of_get?_eq hhead, fun hnot => ?_, fun hsymbolic => ?_⟩
  · refine resolve_head_of_get?_eq hhead fun branch hbranch => hother ?_
    rintro rfl
    exact hnot hbranch
  · rw [resolve_head_of_symbolic ((head_of_get?_eq hhead).trans hsymbolic), resolve_of_ne_head hname]

/-! ## Changes -/

theorem update_points (hname : name ≠ Head.name) (text : String) (store : MemoryStore) :
    ∃ after, update name text store = (.ok (), after) ∧ PointsTo after name text ∧ ChangesOnlyRef name store after := by
  refine ⟨_, update_eq hname text store, pointsTo_of_get? hname (by simp), ?_⟩
  exact changesOnlyRef_of_get? hname fun key hne => by rw [Dict.get?_insert, if_neg hne.symm]

theorem delete_clears (hname : name ≠ Head.name) (hstored : isStored store name = true) :
    ∃ after, delete name store = (.ok (), after) ∧ IsAbsent after name ∧ ChangesOnlyRef name store after := by
  rw [isStored, if_neg hname] at hstored
  refine ⟨_, delete_eq hstored, isAbsent_of_get? hname (by simp), ?_⟩
  exact changesOnlyRef_of_get? hname fun key hne => by rw [Dict.get?_erase, if_neg hne.symm]

theorem delete_refused (hname : name ≠ Head.name) (hstored : isStored store name = false) :
    delete name store = (.error (.refNotFound name), store) := by
  rw [isStored, if_neg hname] at hstored
  exact delete_of_not_has hstored

/-- Whatever a store in memory holds, every ref but HEAD can be pointed at any text and can be deleted if it is there,
and either shows nowhere but in the ref and in a HEAD that names it. -/
theorem changes_one_ref (hname : name ≠ Head.name) (store : MemoryStore) :
    (∀ text, ∃ after, update name text store = (.ok (), after) ∧ PointsTo after name text ∧
        ChangesOnlyRef name store after) ∧
      ((∃ after, delete name store = (.ok (), after)) ↔ isStored store name = true) ∧
      ∀ after, delete name store = (.ok (), after) → IsAbsent after name ∧ ChangesOnlyRef name store after := by
  refine ⟨fun text => update_points hname text store, ?_⟩
  cases hstored : isStored store name with
  | false =>
      have hrefused := delete_refused hname hstored
      refine ⟨by simp [hrefused], fun after hdelete => ?_⟩
      cases hrefused.symm.trans hdelete
  | true =>
      obtain ⟨cleared, hcleared, habsent, honly⟩ := delete_clears hname hstored
      refine ⟨by simp [hcleared], fun after hdelete => ?_⟩
      cases hcleared.symm.trans hdelete
      exact ⟨habsent, honly⟩

/-- HEAD is in a branch whose name is, with the directory before it, another ref's name. -/
theorem changes_one_ref_of_aliased_main :
    let store : MemoryStore :=
      ⟨.ofList [("HEAD", "ref: main\n"), ("refs/heads/main", "1\n"), ("refs/heads/refs/heads/main", "2\n")]⟩
    "main" ≠ Head.name ∧
      (∃ after, update "main" " 3 \r" store = (.ok (), after) ∧ PointsTo after "main" " 3 \r" ∧
        resolve after Head.name = resolve after "main" ∧ resolve after "refs/heads/main" = .ok "2") ∧
      ∃ after, delete "main" store = (.ok (), after) ∧ resolve after Head.name = .error (.refNotFound "main") ∧
        ¬IsListed after "main" ∧ IsListed after "refs/heads/main" := by
  intro store
  have hname : "main" ≠ Head.name := by decide
  have hhead : head store = .ok (.symbolic "main") := by decide +kernel
  have halias : resolve store "refs/heads/main" = .ok "2" := by decide +kernel
  obtain ⟨hupdate, hdelete, hdeleted⟩ := changes_one_ref hname store
  refine ⟨hname, ?_, ?_⟩
  · obtain ⟨after, hok, hpoints, honly⟩ := hupdate " 3 \r"
    exact ⟨after, hok, hpoints, honly.resolve_head_of_symbolic hhead,
      (honly.resolve "refs/heads/main" (by decide) (by decide)).trans halias⟩
  · obtain ⟨after, hok⟩ := hdelete.2 (by decide +kernel)
    obtain ⟨habsent, honly⟩ := hdeleted after hok
    refine ⟨after, hok, ?_, habsent.not_isListed, ?_⟩
    · rw [honly.resolve_head_of_symbolic hhead, habsent.resolve]
    · exact (honly.isListed "refs/heads/main" (by decide)).2 (isListed_iff.2 ⟨"2\n", by decide +kernel⟩)

end VersionControl.Ref
