import Computantis.Schemes.Enumeration
import Mathlib.Data.List.AList

/-! @scheme catalogue | name:A table with an index | family:store

    A table keeps values under keys. Every value has a label, and an index keeps under each label the set of the
    keys whose values have it; a label without keys is not in the index. The index is right (`Indexes`) when it
    says what can be computed from the table, and it stays right when values enter and leave one at a time. Then
    the values with a label can be read through the index, in whatever order its sets are enumerated. -/

namespace Schemes

abbrev Table (κ α : Type) := AList fun _ : κ => α

/-- Sets of keys under labels. -/
abbrev Catalogue (γ κ : Type) := AList fun _ : γ => AList fun _ : κ => Unit

variable {κ α γ : Type}

/-- The values of the table. -/
def values (table : Table κ α) : List α := table.entries.map Sigma.snd

variable [DecidableEq γ]

theorem values_filter (label : α → γ) (table : Table κ α) (l : γ) :
    (values table).filter (fun v => label v = l) =
      (table.entries.filter fun e => label e.2 = l).map Sigma.snd := by
  rw [values, List.filter_map]
  rfl

namespace Catalogue

/-- The keys under a label. -/
def keysAt (index : Catalogue γ κ) (l : γ) : List κ :=
  match index.lookup l with
  | none => []
  | some keys => keys.keys

section Keys

variable {index : Catalogue γ κ} {l l' : γ}

theorem keysAt_insert_self (keys : AList fun _ : κ => Unit) : keysAt (index.insert l keys) l = keys.keys := by
  rw [keysAt, AList.lookup_insert]

theorem keysAt_insert_ne (keys : AList fun _ : κ => Unit) (h : l' ≠ l) :
    keysAt (index.insert l keys) l' = keysAt index l' := by
  rw [keysAt, AList.lookup_insert_ne h, keysAt]

theorem keysAt_nodup (index : Catalogue γ κ) (l : γ) : (keysAt index l).Nodup := by
  rw [keysAt]
  split
  · exact List.nodup_nil
  next keys _ => exact keys.keys_nodup

end Keys

variable [DecidableEq κ]

/-- A key is entered under a label. -/
def enter (index : Catalogue γ κ) (l : γ) (k : κ) : Catalogue γ κ :=
  let keys := match index.lookup l with
    | none => ∅
    | some keys => keys
  index.insert l (keys.insert k ())

/-- A key is taken from the set under a label, which goes with its last key. -/
def withdraw (index : Catalogue γ κ) (l : γ) (k : κ) : Catalogue γ κ :=
  match index.lookup l with
  | none => index
  | some keys => if (keys.erase k).keys.length = 0 then index.erase l else index.insert l (keys.erase k)

variable {index : Catalogue γ κ} {l l' : γ} {k k' : κ}

theorem mem_keysAt_enter : k' ∈ keysAt (enter index l k) l' ↔ l' = l ∧ k' = k ∨ k' ∈ keysAt index l' := by
  rcases eq_or_ne l' l with rfl | hl
  · rw [enter, keysAt_insert_self, ← AList.mem_keys, AList.mem_insert, keysAt]
    cases index.lookup l' with
    | none => simp
    | some keys => simp [AList.mem_keys]
  · rw [enter, keysAt_insert_ne _ hl]
    simp [hl]

theorem mem_keysAt_withdraw :
    k' ∈ keysAt (withdraw index l k) l' ↔ k' ∈ keysAt index l' ∧ ¬ (l' = l ∧ k' = k) := by
  rw [withdraw]
  cases hkeys : index.lookup l with
  | none =>
    refine ⟨fun h => ⟨h, ?_⟩, And.left⟩
    rintro ⟨rfl, -⟩
    rw [keysAt, hkeys] at h
    cases h
  | some keys =>
    simp only
    rcases eq_or_ne l' l with rfl | hl
    · have hold : k' ∈ keysAt index l' ↔ k' ∈ keys := by rw [keysAt, hkeys, AList.mem_keys]
      rw [hold, and_comm]
      split
      next hempty =>
        have hnone : k' ∉ keys.erase k := by
          rw [AList.mem_keys, List.eq_nil_of_length_eq_zero hempty]
          exact List.not_mem_nil
        rw [AList.mem_erase] at hnone
        rw [keysAt, AList.lookup_erase]
        simpa using hnone
      next => rw [keysAt_insert_self, ← AList.mem_keys, AList.mem_erase]; simp
    · split
      next => rw [keysAt, AList.lookup_erase_ne hl, ← keysAt]; simp [hl]
      next => rw [keysAt_insert_ne _ hl]; simp [hl]

end Catalogue

/-! ### The values of a table -/

theorem values_length (table : Table κ α) : (values table).length = table.keys.length := by
  rw [values, List.length_map, AList.keys, List.keys, List.length_map]

section Values

variable [DecidableEq κ] {table : Table κ α} {k : κ}

theorem values_insert {v : α} (h : table.lookup k = none) : values (table.insert k v) = v :: values table := by
  rw [values, AList.entries_insert_of_notMem (AList.lookup_eq_none.mp h), List.map_cons, values]

theorem kerase_eq_filter {entries : List (Sigma fun _ : κ => α)} (h : entries.NodupKeys) :
    entries.kerase k = entries.filter fun e => e.1 ≠ k := by
  induction entries with
  | nil => rfl
  | cons e rest ih =>
    obtain ⟨hnot, hrest⟩ := List.nodupKeys_cons.mp h
    rcases eq_or_ne k e.1 with rfl | hne
    · have hkeep : ∀ e' ∈ rest, decide (e'.1 ≠ e.1) = true := fun e' he' =>
        decide_eq_true fun heq => hnot (heq ▸ List.mem_map_of_mem he')
      rw [List.kerase_cons_eq rfl, List.filter_cons_of_neg (by simp), List.filter_eq_self.mpr hkeep]
    · rw [List.kerase_cons_ne hne, ih hrest, List.filter_cons_of_pos (by simpa using hne.symm)]

theorem values_erase {key : α → κ} (h : ∀ k v, table.lookup k = some v → key v = k) (k : κ) :
    values (table.erase k) = (values table).filter fun v => key v ≠ k := by
  have hentries : (table.erase k).entries = table.entries.filter fun e => e.1 ≠ k := kerase_eq_filter table.nodupKeys
  rw [values, values, hentries, List.filter_map]
  congr 1
  refine List.filter_congr fun e he => ?_
  have hkey := h e.1 e.2 (AList.mem_lookup_iff.mpr he)
  simp [hkey]

theorem mem_values {key : α → κ} (h : ∀ k v, table.lookup k = some v → key v = k) {v : α} :
    v ∈ values table ↔ table.lookup (key v) = some v := by
  rw [values, List.mem_map]
  constructor
  · rintro ⟨e, he, rfl⟩
    have hlookup : table.lookup e.1 = some e.2 := AList.mem_lookup_iff.mpr he
    rw [h e.1 e.2 hlookup, hlookup]
  · intro hv
    exact ⟨⟨key v, v⟩, AList.mem_lookup_iff.mp hv, rfl⟩

end Values

/-! ### The index -/

open Catalogue

variable [DecidableEq κ]

/-- The index says of every label which keys have a value with it, and has no label without keys. -/
structure Indexes (label : α → γ) (table : Table κ α) (index : Catalogue γ κ) : Prop where
  mem : ∀ l k, k ∈ keysAt index l ↔ ∃ v, table.lookup k = some v ∧ label v = l
  inhabited : ∀ l keys, index.lookup l = some keys → keys.keys ≠ []

namespace Indexes

variable {label : α → γ} {table : Table κ α} {index : Catalogue γ κ}

theorem empty (label : α → γ) : Indexes label (∅ : Table κ α) (∅ : Catalogue γ κ) where
  mem l k := by
    rw [keysAt, AList.lookup_empty]
    simp
  inhabited l keys h := by
    rw [AList.lookup_empty] at h
    cases h

theorem insert (h : Indexes label table index) {k : κ} (v : α) (hk : table.lookup k = none) :
    Indexes label (table.insert k v) (enter index (label v) k) where
  mem l k' := by
    rw [mem_keysAt_enter, h.mem]
    rcases eq_or_ne k' k with rfl | hne
    · rw [AList.lookup_insert, hk]
      simp [eq_comm]
    · rw [AList.lookup_insert_ne hne]
      simp [hne]
  inhabited l keys hl := by
    rw [enter] at hl
    rcases eq_or_ne l (label v) with rfl | hne
    · rw [AList.lookup_insert, Option.some.injEq] at hl
      rw [← hl, AList.keys_insert]
      exact List.cons_ne_nil _ _
    · rw [AList.lookup_insert_ne hne] at hl
      exact h.inhabited l keys hl

theorem erase (h : Indexes label table index) {k : κ} {v : α} (hk : table.lookup k = some v) :
    Indexes label (table.erase k) (withdraw index (label v) k) where
  mem l k' := by
    rw [mem_keysAt_withdraw, h.mem]
    rcases eq_or_ne k' k with rfl | hne
    · rw [AList.lookup_erase, hk]
      simp [eq_comm]
    · rw [AList.lookup_erase_ne hne]
      simp [hne]
  inhabited l keys hl := by
    rw [withdraw] at hl
    split at hl
    · exact h.inhabited l keys hl
    next old _ =>
      rcases eq_or_ne l (label v) with rfl | hne
      · split at hl
        · rw [AList.lookup_erase] at hl
          cases hl
        next hlen =>
          rw [AList.lookup_insert, Option.some.injEq] at hl
          rw [← hl]
          exact fun hnil => hlen (by rw [hnil, List.length_nil])
      · split at hl
        · rw [AList.lookup_erase_ne hne] at hl
          exact h.inhabited l keys hl
        · rw [AList.lookup_insert_ne hne] at hl
          exact h.inhabited l keys hl

theorem mem_labelled {l : γ} {k : κ} {v : α} :
    ⟨k, v⟩ ∈ table.entries.filter (fun e => label e.2 = l) ↔ table.lookup k = some v ∧ label v = l := by
  rw [List.mem_filter, decide_eq_true_eq, ← AList.mem_lookup_iff, Option.mem_def]

theorem read_perm (h : Indexes label table index) {l : γ} {ks : List κ} (hks : ks.Perm (keysAt index l)) :
    (ks.filterMap table.lookup).Perm ((values table).filter fun v => label v = l) := by
  have hkeys : ks.Perm ((table.entries.filter fun e => label e.2 = l).map Sigma.fst) := by
    have hnodup : ((table.entries.filter fun e => label e.2 = l).map Sigma.fst).Nodup :=
      table.keys_nodup.sublist (List.filter_sublist.map Sigma.fst)
    refine (List.perm_ext_iff_of_nodup (hks.nodup_iff.mpr (keysAt_nodup index l)) hnodup).mpr fun k => ?_
    rw [hks.mem_iff, h.mem, List.mem_map]
    constructor
    · rintro ⟨v, hv⟩
      exact ⟨⟨k, v⟩, mem_labelled.mpr hv, rfl⟩
    · rintro ⟨⟨k', v⟩, hv, rfl⟩
      exact ⟨v, mem_labelled.mp hv⟩
  have hread : ((table.entries.filter fun e => label e.2 = l).map Sigma.fst).filterMap table.lookup =
      (table.entries.filter fun e => label e.2 = l).map Sigma.snd := by
    rw [List.filterMap_map, ← List.filterMap_eq_map]
    refine List.filterMap_congr fun e he => ?_
    exact (mem_labelled.mp he).1
  rw [values_filter, ← hread]
  exact hkeys.filterMap _

theorem lookup_none_iff (h : Indexes label table index) (l : γ) :
    index.lookup l = none ↔ (values table).filter (fun v => label v = l) = [] := by
  have hkeys : index.lookup l = none ↔ keysAt index l = [] := by
    cases hl : index.lookup l with
    | none => simp [keysAt, hl]
    | some keys => simpa [keysAt, hl] using h.inhabited l keys hl
  have hperm := h.read_perm (List.Perm.refl (keysAt index l))
  rw [hkeys]
  constructor
  · intro hnil
    rw [hnil, List.filterMap_nil] at hperm
    exact hperm.nil_eq.symm
  · intro hnil
    rw [hnil] at hperm
    refine List.eq_nil_iff_forall_not_mem.mpr fun k hk => ?_
    obtain ⟨v, hv, -⟩ := (h.mem l k).mp hk
    have hread : v ∈ (keysAt index l).filterMap table.lookup := List.mem_filterMap.mpr ⟨k, hk, hv⟩
    rw [hperm.eq_nil] at hread
    cases hread

end Indexes

end Schemes
