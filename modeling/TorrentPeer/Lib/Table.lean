import Mathlib.Data.List.Nodup
import Mathlib.Data.List.Dedup
import Mathlib.Algebra.BigOperators.Group.List.Basic
import Mathlib.Algebra.Order.BigOperators.Group.List
import Mathlib.Tactic.Linarith

/-! Hash maps as lists of bindings with distinct keys. The list order carries no
meaning: a loop over the map asks `arrange` for the keys in whatever order the
environment says the hash gives, so a result proved for every `order` holds for
every bucket layout. -/

namespace TorrentPeer

structure Table (κ α : Type) where
  entries : List (κ × α)
  distinct : (entries.map Prod.fst).Nodup

namespace Table

variable {κ α : Type} [DecidableEq κ]

def empty : Table κ α := ⟨[], List.nodup_nil⟩

def keys (table : Table κ α) : List κ := table.entries.map Prod.fst

def size (table : Table κ α) : Nat := table.entries.length

def find? (table : Table κ α) (key : κ) : Option α :=
  (table.entries.find? (fun entry => decide (entry.1 = key))).map Prod.snd

def contains (table : Table κ α) (key : κ) : Bool := (table.find? key).isSome

omit [DecidableEq κ] in
theorem filter_distinct (table : Table κ α) (keep : κ × α → Bool) :
    ((table.entries.filter keep).map Prod.fst).Nodup :=
  table.distinct.sublist (List.filter_sublist.map Prod.fst)

def erase (table : Table κ α) (key : κ) : Table κ α :=
  ⟨table.entries.filter (fun entry => decide (entry.1 ≠ key)), table.filter_distinct _⟩

omit [DecidableEq κ] in
theorem update_keys (entries : List (κ × α)) (change : κ → α → α) :
    (entries.map (fun entry => (entry.1, change entry.1 entry.2))).map Prod.fst =
      entries.map Prod.fst := by
  rw [List.map_map]
  rfl

def update (table : Table κ α) (change : κ → α → α) : Table κ α :=
  ⟨table.entries.map (fun entry => (entry.1, change entry.1 entry.2)),
    by rw [update_keys]; exact table.distinct⟩

def modify (table : Table κ α) (key : κ) (change : α → α) : Table κ α :=
  table.update (fun other value => if other = key then change value else value)

theorem absent_key (table : Table κ α) (key : κ) (absent : table.find? key = none) :
    key ∉ table.entries.map Prod.fst := by
  intro member
  obtain ⟨entry, present, same⟩ := List.mem_map.mp member
  simp only [find?, Option.map_eq_none_iff, List.find?_eq_none, decide_eq_true_eq] at absent
  exact absent entry present same

def emplace (table : Table κ α) (key : κ) (value : α) : Table κ α :=
  match absent : table.find? key with
  | some _ => table
  | none => ⟨table.entries ++ [(key, value)], by
      rw [List.map_append, List.nodup_append]
      refine ⟨table.distinct, by simp, ?_⟩
      intro left member right single same
      simp only [List.map_cons, List.map_nil, List.mem_singleton] at single
      exact table.absent_key key absent (single ▸ same ▸ member)⟩

def assign (table : Table κ α) (key : κ) (value : α) : Table κ α :=
  (table.emplace key value).modify key (fun _ => value)

/-- The keys in the order a loop meets them: those named by `order` first, then the rest. -/
def arrange (table : Table κ α) (order : List κ) : List κ :=
  (order.filter (fun key => decide (key ∈ table.keys))).dedup ++
    table.keys.filter (fun key => decide (key ∉ order))

def total (table : Table κ α) (weight : α → Nat) : Nat :=
  (table.entries.map (fun entry => weight entry.2)).sum

theorem find_member (table : Table κ α) (key : κ) (value : α) :
    table.find? key = some value ↔ (key, value) ∈ table.entries := by
  constructor
  · intro found
    obtain ⟨entry, located, same⟩ := Option.map_eq_some_iff.mp found
    have key_eq := List.find?_some located
    have member := List.mem_of_find?_eq_some located
    simp only [decide_eq_true_eq] at key_eq
    subst key_eq
    subst same
    exact member
  · intro member
    have some_found : (table.entries.find? (fun entry => decide (entry.1 = key))).isSome := by
      rw [List.find?_isSome]
      exact ⟨(key, value), member, by simp⟩
    obtain ⟨entry, located⟩ := Option.isSome_iff_exists.mp some_found
    have key_eq := List.find?_some located
    simp only [decide_eq_true_eq] at key_eq
    have same := List.inj_on_of_nodup_map table.distinct (List.mem_of_find?_eq_some located)
      member key_eq
    simp only [find?, located, same, Option.map_some]

theorem find_keys (table : Table κ α) (key : κ) :
    key ∈ table.keys ↔ ∃ value, table.find? key = some value := by
  simp only [keys, List.mem_map, find_member]
  constructor
  · rintro ⟨⟨other, value⟩, member, rfl⟩
    exact ⟨value, member⟩
  · rintro ⟨value, member⟩
    exact ⟨(key, value), member, rfl⟩

@[simp] theorem find_empty (key : κ) : (empty : Table κ α).find? key = none := rfl

theorem find_ext (table : Table κ α) (key : κ) (result : Option α)
    (same : ∀ value, table.find? key = some value ↔ result = some value) :
    table.find? key = result := by
  cases result with
  | none =>
    cases found : table.find? key with
    | none => rfl
    | some value => cases (same value).mp found
  | some value => exact (same value).mpr rfl

@[simp] theorem find_erase (table : Table κ α) (key other : κ) :
    (table.erase key).find? other = if other = key then none else table.find? other := by
  apply find_ext
  intro value
  rw [find_member]
  simp only [erase, List.mem_filter, decide_eq_true_eq]
  by_cases same : other = key
  · simp [same]
  · simp [same, find_member]

@[simp] theorem find_update (table : Table κ α) (change : κ → α → α) (key : κ) :
    (table.update change).find? key = (table.find? key).map (change key) := by
  apply find_ext
  intro value
  rw [find_member]
  simp only [update, List.mem_map, Prod.mk.injEq, Option.map_eq_some_iff, find_member]
  constructor
  · rintro ⟨⟨other, old⟩, member, rfl, rfl⟩
    exact ⟨old, member, rfl⟩
  · rintro ⟨old, member, rfl⟩
    exact ⟨(key, old), member, rfl, rfl⟩

@[simp] theorem find_modify (table : Table κ α) (key other : κ) (change : α → α) :
    (table.modify key change).find? other =
      if other = key then (table.find? other).map change else table.find? other := by
  rw [modify, find_update]
  by_cases same : other = key
  · simp [same]
  · simp [same]

omit [DecidableEq κ] in
theorem same_entries {left right : Table κ α} (same : left.entries = right.entries) :
    left = right := by
  cases left
  cases right
  cases same
  rfl

theorem update_congr (table : Table κ α) (first second : κ → α → α)
    (same : ∀ key value, table.find? key = some value → first key value = second key value) :
    table.update first = table.update second := by
  apply same_entries
  apply List.map_congr_left
  intro entry member
  rw [same entry.1 entry.2 ((table.find_member _ _).mpr member)]

theorem modify_congr (table : Table κ α) (key : κ) (first second : α → α)
    (same : ∀ value, table.find? key = some value → first value = second value) :
    table.modify key first = table.modify key second := by
  apply update_congr
  intro other value found
  by_cases equal : other = key
  · subst equal
    simp only [if_true]
    exact same value found
  · simp only [if_neg equal]

theorem modify_same (table : Table κ α) (key : κ) (value : α) (found : table.find? key = some value) :
    table.modify key (fun _ => value) = table := by
  have kept : table.modify key (fun _ => value) = table.modify key (fun old => old) := by
    apply modify_congr
    intro old present
    rw [found] at present
    exact Option.some.inj present
  rw [kept]
  apply same_entries
  simp [modify, update]

theorem modify_modify (table : Table κ α) (key : κ) (first second : α → α) :
    (table.modify key first).modify key second = table.modify key (fun value => second (first value)) := by
  apply same_entries
  simp only [modify, update, List.map_map]
  apply List.map_congr_left
  intro entry _
  by_cases equal : entry.1 = key
  · simp [equal]
  · simp [equal]

omit [DecidableEq κ] in
@[simp] theorem size_update (table : Table κ α) (change : κ → α → α) :
    (table.update change).size = table.size := by
  simp [size, update]

@[simp] theorem size_modify (table : Table κ α) (key : κ) (change : α → α) :
    (table.modify key change).size = table.size := size_update table _

theorem size_erase (table : Table κ α) (key : κ) : (table.erase key).size ≤ table.size :=
  List.length_filter_le _ _

theorem emplace_present (table : Table κ α) (key : κ) (value old : α)
    (present : table.find? key = some old) : table.emplace key value = table := by
  unfold emplace
  split
  · rfl
  · rename_i absent
    rw [present] at absent
    cases absent

theorem emplace_entries (table : Table κ α) (key : κ) (value : α)
    (absent : table.find? key = none) :
    (table.emplace key value).entries = table.entries ++ [(key, value)] := by
  unfold emplace
  split
  · rename_i present
    rw [present] at absent
    cases absent
  · rfl

theorem size_emplace (table : Table κ α) (key : κ) (value : α) :
    (table.emplace key value).size ≤ table.size + 1 := by
  cases found : table.find? key with
  | none => simp [size, emplace_entries table key value found]
  | some old => rw [emplace_present table key value old found]; omega

theorem find_emplace (table : Table κ α) (key other : κ) (value : α)
    (absent : table.find? key = none) :
    (table.emplace key value).find? other = if other = key then some value else table.find? other := by
  apply find_ext
  intro candidate
  rw [find_member, emplace_entries table key value absent, List.mem_append, List.mem_singleton,
    ← find_member]
  by_cases same : other = key
  · subst same
    simp [absent, eq_comm]
  · simp [same]

theorem find_emplace_or (table : Table κ α) (key other : κ) (value : α) :
    (table.emplace key value).find? other =
      if other = key then (table.find? key).or (some value) else table.find? other := by
  cases found : table.find? key with
  | none => rw [find_emplace table key other value found, Option.none_or]
  | some old =>
    rw [emplace_present table key value old found]
    split
    · rename_i same
      rw [same, found, Option.some_or]
    · rfl

theorem emplace_modify (table : Table κ α) (key : κ) (value : α) (change : α → α)
    (absent : table.find? key = none) :
    (table.emplace key value).modify key change = table.emplace key (change value) := by
  apply same_entries
  rw [emplace_entries table key _ absent]
  simp only [modify, update, emplace_entries table key _ absent, List.map_append]
  congr 1
  · conv_rhs => rw [← List.map_id table.entries]
    apply List.map_congr_left
    rintro ⟨other, old⟩ member
    have different : other ≠ key := by
      rintro rfl
      rw [(table.find_member _ _).mpr member] at absent
      cases absent
    simp [different]
  · simp

@[simp] theorem find_assign (table : Table κ α) (key other : κ) (value : α) :
    (table.assign key value).find? other = if other = key then some value else table.find? other := by
  rw [assign, find_modify]
  cases found : table.find? key with
  | none =>
    rw [find_emplace table key other value found]
    by_cases same : other = key <;> simp [same]
  | some old =>
    rw [emplace_present table key value old found]
    by_cases same : other = key
    · simp [same, found]
    · simp [same]

theorem arrange_perm (table : Table κ α) (order : List κ) :
    (table.arrange order).Perm table.keys := by
  apply (List.perm_ext_iff_of_nodup ?_ table.distinct).mpr
  · intro key
    simp only [arrange, List.mem_append, List.mem_dedup, List.mem_filter, decide_eq_true_eq]
    constructor
    · rintro (⟨-, member⟩ | ⟨member, -⟩) <;> exact member
    · intro member
      by_cases named : key ∈ order
      · exact Or.inl ⟨named, member⟩
      · exact Or.inr ⟨member, named⟩
  · rw [arrange, List.nodup_append]
    refine ⟨List.nodup_dedup _, table.distinct.filter _, ?_⟩
    intro left named right unnamed same
    simp only [List.mem_dedup, List.mem_filter, decide_eq_true_eq] at named unnamed
    exact unnamed.2 (same ▸ named.1)

theorem arrange_member (table : Table κ α) (order : List κ) (key : κ) :
    key ∈ table.arrange order ↔ ∃ value, table.find? key = some value := by
  rw [(table.arrange_perm order).mem_iff, find_keys]

section Totals

theorem total_update (table : Table κ α) (change : κ → α → α) (weight : α → Nat)
    (same : ∀ key value, table.find? key = some value → weight (change key value) = weight value) :
    (table.update change).total weight = table.total weight := by
  simp only [total, update, List.map_map]
  congr 1
  apply List.map_congr_left
  intro entry member
  exact same entry.1 entry.2 ((table.find_member _ _).mpr member)

theorem total_congr (table : Table κ α) (first second : α → Nat)
    (same : ∀ key value, table.find? key = some value → first value = second value) :
    table.total first = table.total second := by
  simp only [total]
  congr 1
  apply List.map_congr_left
  intro entry member
  exact same entry.1 entry.2 ((table.find_member _ _).mpr member)

theorem sum_change (entries : List (κ × α)) (distinct : (entries.map Prod.fst).Nodup)
    (key : κ) (value : α) (member : (key, value) ∈ entries) (change : α → α)
    (weight : α → Nat) :
    ((entries.map (fun entry =>
        (entry.1, if entry.1 = key then change entry.2 else entry.2))).map
          (fun entry => weight entry.2)).sum + weight value =
      (entries.map (fun entry => weight entry.2)).sum + weight (change value) := by
  induction entries with
  | nil => cases member
  | cons entry rest ih =>
    rw [List.map_cons, List.nodup_cons] at distinct
    obtain ⟨outside, tail⟩ := distinct
    rcases List.mem_cons.mp member with same | later
    · subst same
      -- the key occurs nowhere else, so the tail is unchanged
      have kept : rest.map (fun entry =>
          (entry.1, if entry.1 = key then change entry.2 else entry.2)) = rest := by
        conv_rhs => rw [← List.map_id rest]
        apply List.map_congr_left
        intro other present
        have different : other.1 ≠ key := by
          intro equal
          exact outside (List.mem_map.mpr ⟨other, present, equal⟩)
        simp [different]
      simp only [List.map_cons, List.sum_cons, if_true, kept]
      omega
    · have different : entry.1 ≠ key := by
        intro equal
        exact outside (List.mem_map.mpr ⟨(key, value), later, equal.symm⟩)
      have rest_eq := ih tail later
      simp only [List.map_cons, List.sum_cons, if_neg different]
      omega

theorem total_modify (table : Table κ α) (key : κ) (value : α) (change : α → α)
    (weight : α → Nat) (found : table.find? key = some value) :
    (table.modify key change).total weight + weight value =
      table.total weight + weight (change value) :=
  sum_change table.entries table.distinct key value ((table.find_member _ _).mp found)
    change weight

theorem total_modify_same (table : Table κ α) (key : κ) (change : α → α) (weight : α → Nat)
    (same : ∀ value, table.find? key = some value → weight (change value) = weight value) :
    (table.modify key change).total weight = table.total weight := by
  apply total_update
  intro other value found
  by_cases equal : other = key
  · subst equal
    simp only [if_true]
    exact same value found
  · simp only [if_neg equal]

theorem sum_filter (entries : List (κ × α)) (distinct : (entries.map Prod.fst).Nodup)
    (key : κ) (value : α) (member : (key, value) ∈ entries) (weight : α → Nat) :
    ((entries.filter (fun entry => decide (entry.1 ≠ key))).map
        (fun entry => weight entry.2)).sum + weight value =
      (entries.map (fun entry => weight entry.2)).sum := by
  induction entries with
  | nil => cases member
  | cons entry rest ih =>
    rw [List.map_cons, List.nodup_cons] at distinct
    obtain ⟨outside, tail⟩ := distinct
    rcases List.mem_cons.mp member with same | later
    · subst same
      have kept : rest.filter (fun entry => decide (entry.1 ≠ key)) = rest := by
        rw [List.filter_eq_self]
        intro other present
        rw [decide_eq_true_eq]
        intro equal
        exact outside (List.mem_map.mpr ⟨other, present, equal⟩)
      simp only [List.filter_cons, List.map_cons, List.sum_cons, ne_eq, not_true_eq_false,
        decide_false, Bool.false_eq_true, if_false] at kept ⊢
      rw [kept]
      omega
    · have different : entry.1 ≠ key := by
        intro equal
        exact outside (List.mem_map.mpr ⟨(key, value), later, equal.symm⟩)
      have rest_eq := ih tail later
      simp only [List.filter_cons, different, ne_eq, not_false_eq_true, decide_true, if_true,
        List.map_cons, List.sum_cons] at rest_eq ⊢
      omega

theorem total_erase (table : Table κ α) (key : κ) (value : α) (weight : α → Nat)
    (found : table.find? key = some value) :
    (table.erase key).total weight + weight value = table.total weight :=
  sum_filter table.entries table.distinct key value ((table.find_member _ _).mp found) weight

theorem total_emplace (table : Table κ α) (key : κ) (value : α) (weight : α → Nat)
    (absent : table.find? key = none) :
    (table.emplace key value).total weight = table.total weight + weight value := by
  simp only [total, emplace_entries table key value absent, List.map_append, List.sum_append,
    List.map_cons, List.map_nil, List.sum_cons, List.sum_nil, Nat.add_zero]

omit [DecidableEq κ] in
theorem total_bounded (table : Table κ α) (weight : α → Nat) (most : Nat)
    (bounded : ∀ value, weight value ≤ most) : table.total weight ≤ table.size * most := by
  have sum := List.sum_le_card_nsmul (table.entries.map (fun entry => weight entry.2)) most (by
    intro amount member
    obtain ⟨entry, -, rfl⟩ := List.mem_map.mp member
    exact bounded entry.2)
  rw [List.length_map, nsmul_eq_mul] at sum
  exact sum

theorem total_positive (table : Table κ α) (weight : α → Nat) :
    0 < table.total weight ↔ ∃ key value, table.find? key = some value ∧ 0 < weight value := by
  rw [total, List.sum_pos_iff_exists_pos_nat]
  constructor
  · rintro ⟨amount, member, positive⟩
    obtain ⟨entry, present, rfl⟩ := List.mem_map.mp member
    exact ⟨entry.1, entry.2, (table.find_member _ _).mpr present, positive⟩
  · rintro ⟨key, value, found, positive⟩
    exact ⟨weight value,
      List.mem_map.mpr ⟨(key, value), (table.find_member _ _).mp found, rfl⟩, positive⟩

theorem total_one (table : Table κ α) (weight : α → Nat) :
    table.total weight = 1 ↔ ∃ key value, table.find? key = some value ∧ weight value = 1 ∧
      ∀ other candidate, table.find? other = some candidate → other ≠ key → weight candidate = 0 := by
  constructor
  · intro single
    obtain ⟨key, value, found, positive⟩ := (table.total_positive weight).mp (by omega)
    have balance := table.total_erase key value weight found
    refine ⟨key, value, found, by omega, ?_⟩
    intro other candidate present different
    by_contra heavy
    have rest := ((table.erase key).total_positive weight).mpr
      ⟨other, candidate, by rw [find_erase, if_neg different, present], Nat.pos_of_ne_zero heavy⟩
    omega
  · rintro ⟨key, value, found, one, others⟩
    have balance := table.total_erase key value weight found
    have rest : ¬ 0 < (table.erase key).total weight := by
      rw [total_positive]
      rintro ⟨other, candidate, present, positive⟩
      rw [find_erase] at present
      split at present
      · cases present
      · rename_i different
        rw [others other candidate present different] at positive
        omega
    omega

end Totals

end Table

end TorrentPeer
