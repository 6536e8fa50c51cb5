import GrammarTables.Ascending

/-!
# Ascending/Lemmas — what the operations hold, and that they stay ascending

Each operation has one lemma on its members (`mem_insert`, `mem_union`, …) or on its values
(`get?_update`), and one that its result is ascending again.  **Two ascending lists with the same
members are equal** (`eq_of_mem_iff`), so the first kind of lemma says all there is to say of a set.
-/

namespace GrammarTables.Ascending

open Std

variable {α β : Type} [Ord α]

/-- The members are in ascending order, each once. -/
def IsAscending (as : List α) : Prop :=
  as.Pairwise fun a b => compare a b = .lt

/-- The keys are in ascending order, each once. -/
def HasAscendingKeys (entries : List (α × β)) : Prop :=
  IsAscending (entries.map (·.1))

instance (as : List α) : Decidable (IsAscending as) :=
  inferInstanceAs (Decidable (as.Pairwise fun a b => compare a b = .lt))

instance (entries : List (α × β)) : Decidable (HasAscendingKeys entries) :=
  inferInstanceAs (Decidable (IsAscending (entries.map (·.1))))

/-! ## Members -/

section Members

variable [LawfulEqOrd α] {x a : α} {as bs : List α}

/-- Inserting adds one element and loses none, in whatever order the others stand. -/
@[simp]
theorem mem_insert : x ∈ insert a bs ↔ x = a ∨ x ∈ bs := by
  induction bs with
  | nil => simp [insert]
  | cons b bs ih =>
    rw [insert]
    split
    · exact List.mem_cons
    · next h => simp [LawfulEqCmp.eq_of_compare h]
    · rw [List.mem_cons, ih, List.mem_cons, or_left_comm]

@[simp]
theorem mem_insertAll : x ∈ insertAll as bs ↔ x ∈ as ∨ x ∈ bs := by
  induction as with
  | nil => simp [insertAll]
  | cons a as ih =>
    rw [insertAll, List.foldr_cons, mem_insert, ← insertAll, ih, List.mem_cons, or_assoc]

@[simp]
theorem mem_ofList : x ∈ ofList as ↔ x ∈ as := by
  simp [ofList]

/-- Merging goes through both lists; `rest` is what the recursion does with the tail of the first
one, so this is the step of `mem_union`. -/
theorem mem_unionFrom {rest : List α → List α}
    (hrest : ∀ bs, x ∈ rest bs ↔ x ∈ as ∨ x ∈ bs) :
    x ∈ unionFrom a rest bs ↔ x = a ∨ x ∈ as ∨ x ∈ bs := by
  induction bs with
  | nil => simp [unionFrom, hrest]
  | cons b bs ih =>
    rw [unionFrom]
    split
    · rw [List.mem_cons, hrest]
    · next h =>
      obtain rfl := LawfulEqCmp.eq_of_compare h
      rw [List.mem_cons, hrest, List.mem_cons, or_left_comm (a := x ∈ as), or_self_left]
    · rw [List.mem_cons, ih, List.mem_cons, or_left_comm, or_left_comm (a := x = b)]

/-- **A union has the elements of both.** No order is asked for here. -/
@[simp]
theorem mem_union : x ∈ union as bs ↔ x ∈ as ∨ x ∈ bs := by
  induction as generalizing bs with
  | nil => simp [union]
  | cons a as ih => rw [union, mem_unionFrom fun _ => ih, List.mem_cons, or_assoc]

end Members

/-! ## Order -/

section Order

variable {a : α} {as bs : List α}

theorem isAscending_nil : IsAscending ([] : List α) :=
  List.Pairwise.nil

theorem isAscending_cons :
    IsAscending (a :: as) ↔ (∀ b ∈ as, compare a b = .lt) ∧ IsAscending as :=
  List.pairwise_cons

/-- A member of an ascending list stands in it once. -/
theorem IsAscending.nodup [ReflOrd α] (has : IsAscending as) : as.Nodup :=
  List.Pairwise.imp (fun {x y} (h : compare x y = .lt) (hxy : x = y) => by
    rw [hxy, compare_self] at h
    exact nomatch h) has

variable [TransOrd α]

/-- What is below the first member is below all of them. -/
theorem lt_of_lt_head {b : α} (h : compare a b = .lt) (hbs : IsAscending (b :: bs)) :
    ∀ x ∈ b :: bs, compare a x = .lt := by
  intro x hx
  rcases List.mem_cons.mp hx with rfl | hx
  · exact h
  · exact TransCmp.lt_trans h ((isAscending_cons.mp hbs).1 x hx)

variable [LawfulEqOrd α]

/-- The element is put in its place, or left out when it is there already. -/
theorem isAscending_insert (hbs : IsAscending bs) : IsAscending (insert a bs) := by
  induction bs with
  | nil => exact List.pairwise_singleton _ _
  | cons b bs ih =>
    rw [insert]
    split
    · next h => exact isAscending_cons.mpr ⟨lt_of_lt_head h hbs, hbs⟩
    · exact hbs
    · next h =>
      obtain ⟨hb, hbs⟩ := isAscending_cons.mp hbs
      refine isAscending_cons.mpr ⟨fun x hx => ?_, ih hbs⟩
      rcases mem_insert.mp hx with rfl | hx
      · exact OrientedCmp.gt_iff_lt.mp h
      · exact hb x hx

theorem isAscending_insertAll (hbs : IsAscending bs) : IsAscending (insertAll as bs) := by
  induction as with
  | nil => exact hbs
  | cons a as ih => exact isAscending_insert ih

theorem isAscending_ofList : IsAscending (ofList as) :=
  isAscending_insertAll isAscending_nil

/-- The step of `isAscending_union`: what is smaller than the head of the first list goes before it,
and all else after it. -/
theorem isAscending_unionFrom {rest : List α → List α}
    (hmem : ∀ x bs, x ∈ rest bs ↔ x ∈ as ∨ x ∈ bs)
    (hrest : ∀ bs, IsAscending bs → IsAscending (rest bs))
    (ha : ∀ x ∈ as, compare a x = .lt) (hbs : IsAscending bs) :
    IsAscending (unionFrom a rest bs) := by
  have below {cs : List α} (hcs : ∀ x ∈ cs, compare a x = .lt) :
      ∀ x ∈ rest cs, compare a x = .lt := fun x hx =>
    ((hmem x cs).mp hx).elim (ha x) (hcs x)
  induction bs with
  | nil => exact isAscending_cons.mpr ⟨below (by simp), hrest _ isAscending_nil⟩
  | cons b bs ih =>
    rw [unionFrom]
    split
    · next h => exact isAscending_cons.mpr ⟨below (lt_of_lt_head h hbs), hrest _ hbs⟩
    · next h =>
      obtain rfl := LawfulEqCmp.eq_of_compare h
      obtain ⟨hb, hbs⟩ := isAscending_cons.mp hbs
      exact isAscending_cons.mpr ⟨below hb, hrest _ hbs⟩
    · next h =>
      obtain ⟨hb, hbs⟩ := isAscending_cons.mp hbs
      have hba := OrientedCmp.gt_iff_lt.mp h
      refine isAscending_cons.mpr ⟨fun x hx => ?_, ih hbs⟩
      rcases (mem_unionFrom (hmem x)).mp hx with rfl | hx | hx
      · exact hba
      · exact TransCmp.lt_trans hba (ha x hx)
      · exact hb x hx

/-- **A union is in ascending order when both sets are.** With `mem_union` it is the union of
sets. -/
theorem isAscending_union (has : IsAscending as) (hbs : IsAscending bs) :
    IsAscending (union as bs) := by
  induction as generalizing bs with
  | nil => exact hbs
  | cons a as ih =>
    obtain ⟨ha, has⟩ := isAscending_cons.mp has
    exact isAscending_unionFrom (fun _ _ => mem_union) (fun _ => ih has) ha hbs

/-- **An ascending list is determined by its members.** -/
theorem eq_of_mem_iff (has : IsAscending as) (hbs : IsAscending bs)
    (h : ∀ x, x ∈ as ↔ x ∈ bs) : as = bs := by
  have hperm : as.Perm bs := (List.perm_ext_iff_of_nodup has.nodup hbs.nodup).mpr h
  exact hperm.eq_of_pairwise
    (fun x y _ _ hxy hyx => by
      rw [← OrientedCmp.gt_iff_lt, hxy] at hyx
      exact nomatch hyx) has hbs

end Order

/-! ## Maps -/

section Maps

variable {key other : α} {value : β} {f : Option β → β} {entries : List (α × β)}

omit [Ord α] in
theorem get?_cons [DecidableEq α] :
    get? key ((other, value) :: entries) =
      if other = key then some value else get? key entries := by
  rw [get?, List.find?_cons]
  by_cases h : other = key <;> simp [h, get?]

omit [Ord α] in
/-- The first entry with a key decides, so entries further on count only when there is none
before. -/
theorem get?_append [DecidableEq α] {more : List (α × β)} :
    get? key (entries ++ more) = (get? key entries).or (get? key more) := by
  rw [get?, List.find?_append, Option.map_or]
  rfl

omit [Ord α] in
theorem mem_of_get?_eq_some [DecidableEq α] (h : get? key entries = some value) :
    (key, value) ∈ entries := by
  obtain ⟨⟨other, found⟩, hfind, rfl⟩ := Option.map_eq_some_iff.mp h
  have hkey := List.find?_some hfind
  obtain rfl : other = key := of_decide_eq_true hkey
  exact List.mem_of_find?_eq_some hfind

omit [Ord α] in
/-- An entry is found under its key, or one that stands before it. -/
theorem exists_get?_of_mem [DecidableEq α] (h : (key, value) ∈ entries) :
    ∃ first, get? key entries = some first := by
  rw [← Option.isSome_iff_exists, get?, Option.isSome_map, List.find?_isSome]
  exact ⟨(key, value), h, decide_eq_true rfl⟩

/-- A key below all others has no value. -/
theorem get?_eq_none_of_lt [DecidableEq α] [ReflOrd α]
    (h : ∀ entry ∈ entries, compare key entry.1 = .lt) : get? key entries = none := by
  rw [get?, Option.map_eq_none_iff, List.find?_eq_none]
  intro entry hentry hkey
  have hlt := h entry hentry
  rw [of_decide_eq_true hkey, compare_self] at hlt
  exact nomatch hlt

/-- An update adds its key, if it is new, and keeps all others. -/
theorem mem_keys_update [LawfulEqOrd α] {x : α} :
    x ∈ (update key f entries).map (·.1) ↔ x = key ∨ x ∈ entries.map (·.1) := by
  induction entries with
  | nil => simp [update]
  | cons entry entries ih =>
    rw [update]
    split
    · rw [List.map_cons, List.mem_cons]
    · next h =>
      rw [LawfulEqCmp.eq_of_compare h, List.map_cons, List.map_cons, List.mem_cons, or_self_left]
    · rw [List.map_cons, List.mem_cons, ih, List.map_cons, List.mem_cons, or_left_comm]

variable [TransOrd α] [LawfulEqOrd α]

/-- A map that is kept in the order of its keys has one entry for each key. -/
theorem hasAscendingKeys_update (h : HasAscendingKeys entries) :
    HasAscendingKeys (update key f entries) := by
  induction entries with
  | nil => exact List.pairwise_singleton _ _
  | cons entry entries ih =>
    rw [update]
    split
    · next hlt => exact isAscending_cons.mpr ⟨lt_of_lt_head hlt h, h⟩
    · exact h
    · next hgt =>
      obtain ⟨hentry, hentries⟩ := isAscending_cons.mp h
      refine isAscending_cons.mpr ⟨fun x hx => ?_, ih hentries⟩
      rcases mem_keys_update.mp hx with rfl | hx
      · exact OrientedCmp.gt_iff_lt.mp hgt
      · exact hentry x hx

/-- **An update sets the value of its key and of no other.** -/
theorem get?_update [DecidableEq α] (h : HasAscendingKeys entries) :
    get? other (update key f entries) =
      if key = other then some (f (get? key entries)) else get? other entries := by
  induction entries with
  | nil => rw [update, get?_cons]; rfl
  | cons entry entries ih =>
    obtain ⟨k, v⟩ := entry
    obtain ⟨hentry, hentries⟩ := isAscending_cons.mp h
    rw [update]
    split
    · next hlt =>
      have hnone : get? key ((k, v) :: entries) = none := get?_eq_none_of_lt fun e he =>
        lt_of_lt_head hlt h e.1 (List.mem_map_of_mem he)
      rw [get?_cons, hnone]
    · next heq =>
      obtain rfl := LawfulEqCmp.eq_of_compare heq
      rw [get?_cons, get?_cons, get?_cons, if_pos rfl]
      by_cases hk : key = other <;> simp [hk]
    · next hgt =>
      have hne : k ≠ key := fun hk => by
        rw [hk, compare_self] at hgt
        exact nomatch hgt
      rw [get?_cons, ih hentries, get?_cons, get?_cons, if_neg hne]
      by_cases hk : key = other
      · rw [if_pos hk, if_pos hk, if_neg (hk ▸ hne)]
      · rw [if_neg hk, if_neg hk]

omit [TransOrd α] in
/-- **A map has an entry exactly when this is the value of its key.** -/
theorem mem_iff_get?_eq_some [DecidableEq α] (h : HasAscendingKeys entries) :
    (key, value) ∈ entries ↔ get? key entries = some value := by
  induction entries with
  | nil => simp [get?]
  | cons entry entries ih =>
    obtain ⟨k, v⟩ := entry
    obtain ⟨hentry, hentries⟩ := isAscending_cons.mp h
    rw [List.mem_cons, get?_cons, ih hentries, Prod.mk.injEq]
    by_cases hk : k = key
    · subst hk
      have hnone : get? k entries = none := get?_eq_none_of_lt fun e he =>
        hentry e.1 (List.mem_map_of_mem he)
      simp [hnone, eq_comm]
    · simp [hk, Ne.symm hk]

/-- **A map is determined by its values.** -/
theorem eq_of_get?_eq [DecidableEq α] {entries' : List (α × β)} (h : HasAscendingKeys entries)
    (h' : HasAscendingKeys entries') (hget : ∀ key, get? key entries = get? key entries') :
    entries = entries' := by
  have hmem : ∀ entry, entry ∈ entries ↔ entry ∈ entries' := fun entry => by
    rw [mem_iff_get?_eq_some h, hget, ← mem_iff_get?_eq_some h']
  have nodup {entries : List (α × β)} (h : HasAscendingKeys entries) : entries.Nodup :=
    (List.pairwise_map.mp h.nodup).imp fun hne heq => hne (congrArg Prod.fst heq)
  have hperm : entries.Perm entries' :=
    (List.perm_ext_iff_of_nodup (nodup h) (nodup h')).mpr hmem
  refine hperm.eq_of_pairwise (fun entry other _ _ hlt hgt => ?_)
    (List.pairwise_map.mp h) (List.pairwise_map.mp h')
  rw [← OrientedCmp.gt_iff_lt, hlt] at hgt
  cases hgt

end Maps

/-! ## Sorting -/

section Sorting

variable {key : β → α} {b : β} {bs : List β}

theorem perm_insertBy : (insertBy key b bs).Perm (b :: bs) := by
  induction bs with
  | nil => exact List.Perm.refl _
  | cons c bs ih =>
    rw [insertBy]
    split
    · exact List.Perm.refl _
    · exact (List.Perm.cons c ih).trans (List.Perm.swap b c bs)

/-- **Sorting keeps the members, and how often each occurs.** -/
theorem perm_sortBy : (sortBy key bs).Perm bs := by
  induction bs with
  | nil => exact List.Perm.refl _
  | cons b bs ih => exact perm_insertBy.trans (List.Perm.cons b ih)

@[simp]
theorem mem_sortBy : b ∈ sortBy key bs ↔ b ∈ bs :=
  perm_sortBy.mem_iff

/-- The place depends on the key only, so an image is inserted where its origin is. -/
theorem insertBy_map {γ : Type} (f : γ → β) (c : γ) (cs : List γ) :
    insertBy key (f c) (cs.map f) = (insertBy (key ∘ f) c cs).map f := by
  induction cs with
  | nil => rfl
  | cons d cs ih =>
    rw [List.map_cons, insertBy, insertBy, ih, apply_ite (List.map f)]
    rfl

/-- Sorting by the keys of images sorts the images. -/
theorem sortBy_map {γ : Type} (f : γ → β) (cs : List γ) :
    sortBy key (cs.map f) = (sortBy (key ∘ f) cs).map f := by
  induction cs with
  | nil => rfl
  | cons c cs ih =>
    rw [List.map_cons, sortBy, List.foldr_cons, ← sortBy, ih, insertBy_map]
    rfl

variable [TransOrd α]

/-- An element is put before the first one that is not smaller. -/
theorem sorted_insertBy (h : bs.Pairwise fun c d => (compare (key c) (key d)).isLE) :
    (insertBy key b bs).Pairwise fun c d => (compare (key c) (key d)).isLE := by
  induction bs with
  | nil => exact List.pairwise_singleton _ _
  | cons c bs ih =>
    obtain ⟨hc, hbs⟩ := List.pairwise_cons.mp h
    rw [insertBy]
    split
    · next hle =>
      refine List.pairwise_cons.mpr ⟨fun d hd => ?_, h⟩
      rcases List.mem_cons.mp hd with rfl | hd
      · exact hle
      · exact TransCmp.isLE_trans hle (hc d hd)
    · next hle =>
      refine List.pairwise_cons.mpr ⟨fun d hd => ?_, ih hbs⟩
      rcases List.mem_cons.mp (perm_insertBy.mem_iff.mp hd) with rfl | hd
      · have hswap : compare (key d) (key c) = (compare (key c) (key d)).swap :=
          OrientedCmp.eq_swap
        revert hle
        rw [hswap]
        cases compare (key c) (key d) <;> simp
      · exact hc d hd

/-- **Sorting puts smaller keys first.** -/
theorem sorted_sortBy : (sortBy key bs).Pairwise fun c d => (compare (key c) (key d)).isLE := by
  induction bs with
  | nil => exact List.Pairwise.nil
  | cons b bs ih => exact sorted_insertBy ih

/-- **Sorting forgets the order**, when different members have different keys. -/
theorem sortBy_eq_of_perm [LawfulEqOrd α] {cs : List β} (hperm : bs.Perm cs)
    (hkeys : ∀ b ∈ bs, ∀ c ∈ bs, key b = key c → b = c) : sortBy key bs = sortBy key cs := by
  refine List.Perm.eq_of_pairwise (fun b c hb hc hle hge => ?_) sorted_sortBy sorted_sortBy
    (perm_sortBy.trans (hperm.trans perm_sortBy.symm))
  refine hkeys b (mem_sortBy.mp hb) c (hperm.mem_iff.mpr (mem_sortBy.mp hc)) ?_
  exact compare_eq_iff_eq.mp (OrientedCmp.isLE_antisymm hle hge)

end Sorting

end GrammarTables.Ascending
