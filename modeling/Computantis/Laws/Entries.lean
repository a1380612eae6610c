import Computantis.Laws.Awaiting

/-! @law entries | name:What an index entry weighs | family:bounds | about:Model/Cache

    An entry of the index is one string: hashes of 64 characters with commas between them. `remove` puts a comma
    in front of every part that stays, also in front of the empty part that the first comma of an earlier
    removal has left. So every removal costs one comma for good, as long as the entry does not become empty:

        h₁ ──add──▶ h₁,h₂ ──remove h₁──▶ ,h₂ ──remove h₂──▶ ,        (one character, no hash)

    An entry is no longer than 65 characters a hash while it has not been through two removals in one life. -/

namespace Computantis

open Schemes

namespace AddressEntry

/-- What is called on an entry. -/
inductive Op where
  | add (hash : Hash)
  | remove (hash : Hash)

def step (v : Bytes) : Op → Bytes
  | .add hash => add v hash
  | .remove hash => remove v hash

/-- The hashes in `read v`. -/
def held (v : Bytes) : List Hash :=
  match read v with
  | .error _ => []
  | .ok (hashes, _) => hashes

/-- Only hashes that are not in the entry are added. -/
def Fresh (v : Bytes) : Op → Prop
  | .add hash => hash ∉ held v
  | .remove _ => True

instance (v : Bytes) : (op : Op) → Decidable (Fresh v op)
  | .add hash => inferInstanceAs (Decidable (hash ∉ held v))
  | .remove _ => isTrue trivial

/-- The entry begins with a hash: it is not empty, and there is no comma in front. -/
def Fronted : Bytes → Prop
  | [] => False
  | c :: _ => c ≠ comma

/-- CONDITION: what is removed, is removed from an entry that begins with a hash. -/
def FirstRemoval (v : Bytes) : Op → Prop
  | .add _ => True
  | .remove _ => Fronted v

/-- The entry is read without an error, it has at most 65 characters a hash, and it is empty exactly when there
    is no hash in it. -/
def Compact (v : Bytes) : Prop :=
  (∃ hashes, read v = .ok (hashes, false)) ∧ v.length ≤ 65 * (held v).length ∧ (v = [] ↔ held v = [])

/-! ### Hashes and commas -/

theorem hexHash_length (hash : Hash) : (hexHash hash).length = 64 := by
  simp [hexHash, hexEncodeBytes, List.length_flatMap, hash.len]

theorem count_comma_hex (hash : Hash) : (hexHash hash).count comma = 0 :=
  List.count_eq_zero_of_not_mem (comma_not_mem_hex _)

theorem fronted_hex (hash : Hash) : Fronted (hexHash hash) := by
  have hcomma : comma ∉ hexHash hash := comma_not_mem_hex _
  cases hhex : hexHash hash with
  | nil => exact absurd hhex (hexHash_ne_nil hash)
  | cons c rest =>
    rw [hhex] at hcomma
    exact fun hc => hcomma (hc ▸ List.mem_cons_self ..)

variable {v : Bytes}

theorem fronted_append (hv : v ≠ []) (w : Bytes) : Fronted (v ++ w) ↔ Fronted v := by
  cases v with
  | nil => exact absurd rfl hv
  | cons c rest => exact Iff.rfl

theorem add_of_ne_nil (hv : v ≠ []) (hash : Hash) : add v hash = v ++ comma :: hexHash hash := by
  rw [add, if_neg (by rwa [List.length_eq_zero_iff]), hexHash]

theorem commas_add (hv : v ≠ []) (hash : Hash) : (add v hash).count comma = v.count comma + 1 := by
  rw [add_of_ne_nil hv, List.count_append, List.count_cons_self, count_comma_hex]

theorem not_fronted_remove (v : Bytes) (hash : Hash) : ¬ Fronted (remove v hash) := by
  rw [remove]
  cases (v.splitOn comma).filter fun val => val ≠ hexEncodeBytes hash.bytes with
  | nil => exact id
  | cons x xs => exact fun h => h rfl

/-- The entry lists the hashes. It begins with a hash and has a comma between any two, or it does not and has at
    least as many commas as hashes. -/
structure Shaped (v : Bytes) (hs : List Hash) : Prop where
  listed : fields comma v = hs.map hexHash
  commas : Fronted v ∧ v.count comma + 1 = hs.length ∨ ¬ Fronted v ∧ hs.length ≤ v.count comma

namespace Shaped

variable {v : Bytes} {hs : List Hash}

theorem read (h : Shaped v hs) : AddressEntry.read v = .ok (hs, false) := read_ok h.listed

theorem held (h : Shaped v hs) : AddressEntry.held v = hs := by rw [AddressEntry.held, h.read]

theorem length (h : Shaped v hs) : v.length = 64 * hs.length + v.count comma := by
  have hconst : List.length ∘ hexHash = fun _ => 64 := funext hexHash_length
  have hsum : ((hs.map hexHash).map List.length).sum = 64 * hs.length := by
    rw [List.map_map, hconst, List.map_const', List.sum_replicate_nat, Nat.mul_comm]
  have hlen : v.length = ((fields comma v).map List.length).sum + v.count comma := length_eq_fields v
  rwa [h.listed, hsum] at hlen

theorem compact_iff (h : Shaped v hs) : Compact v ↔ v.count comma ≤ hs.length := by
  have hlen := h.length
  rw [Compact, h.held]
  constructor
  · rintro ⟨-, hle, -⟩
    omega
  · intro hle
    refine ⟨⟨hs, h.read⟩, by omega, ?_⟩
    rw [← List.length_eq_zero_iff, ← List.length_eq_zero_iff]
    omega

theorem set (hash : Hash) : Shaped (AddressEntry.set hash) [hash] where
  listed := fields_hexHash hash
  commas := .inl ⟨fronted_hex hash, by rw [AddressEntry.set, ← hexHash, count_comma_hex]; rfl⟩

theorem add (h : Shaped v hs) (hash : Hash) : Shaped (AddressEntry.add v hash) (hs ++ [hash]) := by
  rcases eq_or_ne v [] with rfl | hv
  · have hnone : hs = [] := by
      have := h.listed
      rwa [fields_nil, eq_comm, List.map_eq_nil_iff] at this
    rw [hnone]
    exact Shaped.set hash
  · refine ⟨by rw [fields_add, h.listed, List.map_append, List.map_singleton], ?_⟩
    rw [commas_add hv, add_of_ne_nil hv, fronted_append hv, List.length_append, List.length_singleton]
    refine h.commas.imp (And.imp_right fun heq => ?_) (And.imp_right fun hle => ?_)
    · omega
    · omega

theorem commas_remove (h : Shaped v hs) (hash : Hash) :
    (AddressEntry.remove v hash).count comma + hs.length =
      v.count comma + 1 + (hs.filter (· ≠ hash)).length := by
  have hparts : (AddressEntry.remove v hash).count comma + (fields comma v).count (hexHash hash) =
      v.count comma + 1 := count_drop_join (hexHash_ne_nil hash) v
  rw [h.listed, List.count_map_of_injective _ _ hexHash_injective] at hparts
  have hhashes := length_filter_ne hash hs
  omega

theorem remove (h : Shaped v hs) (hash : Hash) :
    Shaped (AddressEntry.remove v hash) (hs.filter (· ≠ hash)) := by
  refine ⟨by rw [fields_remove, h.listed, map_filter_hex], .inr ⟨not_fronted_remove v hash, ?_⟩⟩
  have hcommas := h.commas_remove hash
  rcases h.commas with ⟨-, heq⟩ | ⟨-, hle⟩
  · omega
  · omega

end Shaped

/-! ### Runs -/

/-- No more commas than hashes. -/
def Fitting (v : Bytes) : Prop := ∃ hs, Shaped v hs ∧ v.count comma ≤ hs.length

/-- More commas than hashes. -/
def Overgrown (v : Bytes) : Prop := ∃ hs, Shaped v hs ∧ hs.length < v.count comma

theorem Fitting.compact (h : Fitting v) : Compact v := by
  obtain ⟨hs, hshape, hle⟩ := h
  exact hshape.compact_iff.mpr hle

theorem Overgrown.not_compact (h : Overgrown v) : ¬ Compact v := by
  obtain ⟨hs, hshape, hlt⟩ := h
  rw [hshape.compact_iff]
  omega

theorem Fitting.step (h : Fitting v) {op : Op} (hop : FirstRemoval v op) : Fitting (AddressEntry.step v op) := by
  obtain ⟨hs, hshape, hle⟩ := h
  cases op with
  | add hash =>
    refine ⟨_, hshape.add hash, ?_⟩
    rcases eq_or_ne v [] with rfl | hv
    · have hnone : (AddressEntry.add [] hash).count comma = 0 := count_comma_hex hash
      rw [AddressEntry.step, hnone]
      exact Nat.zero_le _
    · rw [AddressEntry.step, commas_add hv, List.length_append, List.length_singleton]
      omega
  | remove hash =>
    refine ⟨_, hshape.remove hash, ?_⟩
    have hcommas := hshape.commas_remove hash
    have hfirst : v.count comma + 1 = hs.length := by
      rcases hshape.commas with ⟨-, heq⟩ | ⟨hfront, -⟩
      · exact heq
      · exact absurd hop hfront
    rw [AddressEntry.step]
    omega

theorem Fitting.second (h : Fitting v) {op : Op} (hop : ¬ FirstRemoval v op) :
    Overgrown (AddressEntry.step v op) := by
  obtain ⟨hs, hshape, hle⟩ := h
  cases op with
  | add hash => exact absurd trivial hop
  | remove hash =>
    refine ⟨_, hshape.remove hash, ?_⟩
    have hcommas := hshape.commas_remove hash
    rcases hshape.commas with ⟨hfront, -⟩ | ⟨-, hge⟩
    · exact absurd hfront hop
    · rw [AddressEntry.step]
      omega

theorem Overgrown.step (h : Overgrown v) (op : Op) : Overgrown (AddressEntry.step v op) := by
  obtain ⟨hs, hshape, hlt⟩ := h
  cases op with
  | add hash =>
    have hv : v ≠ [] := by
      rintro rfl
      simp at hlt
    refine ⟨_, hshape.add hash, ?_⟩
    rw [AddressEntry.step, commas_add hv, List.length_append, List.length_singleton]
    omega
  | remove hash =>
    refine ⟨_, hshape.remove hash, ?_⟩
    have hcommas := hshape.commas_remove hash
    rw [AddressEntry.step]
    omega

/-- RUN: a fitting entry is compact after a run exactly when the condition holds along it. -/
theorem Fitting.run_iff (h : Fitting v) (ops : List Op) :
    Compact (run AddressEntry.step v ops) ↔ Along AddressEntry.step FirstRemoval v ops := by
  induction ops generalizing v with
  | nil => exact iff_of_true h.compact trivial
  | cons op ops ih =>
    by_cases hop : FirstRemoval v op
    · rw [run_cons, ih (h.step hop)]
      exact (and_iff_right hop).symm
    · have hover : Overgrown (run AddressEntry.step (AddressEntry.step v op) ops) :=
        run_invariant (I := Overgrown) (fun _ op hw => hw.step op) ops (h.second hop)
      exact iff_of_false hover.not_compact fun halong => hop halong.1

end AddressEntry

/-- VERDICT: an entry that is built from one hash is compact exactly when every hash was removed from an entry
    that began with a hash, so at most once since it was last empty. -/
theorem entry_compact_iff (hash : Hash) (ops : List AddressEntry.Op) :
    AddressEntry.Compact (run AddressEntry.step (AddressEntry.set hash) ops) ↔
      Along AddressEntry.step AddressEntry.FirstRemoval (AddressEntry.set hash) ops := by
  have hset : AddressEntry.Fitting (AddressEntry.set hash) := by
    refine ⟨[hash], AddressEntry.Shaped.set hash, ?_⟩
    have hnone : (AddressEntry.set hash).count comma = 0 := AddressEntry.count_comma_hex hash
    rw [hnone]
    exact Nat.zero_le _
  exact hset.run_iff ops

namespace Transparent

/-- Two hashes are entered, then removed one after the other. -/
def enterAndRemove : List AddressEntry.Op :=
  [.add (digest [2]), .remove (digest [1]), .remove (digest [2])]

end Transparent

open Transparent in
/-- BUG: two hashes come and go, and the entry is a comma. Callers that look for an empty entry keep it. -/
theorem emptied_entry_keeps_comma :
    Along AddressEntry.step AddressEntry.Fresh (AddressEntry.set (digest [1])) enterAndRemove ∧
      run AddressEntry.step (AddressEntry.set (digest [1])) enterAndRemove = [comma] ∧
      AddressEntry.held [comma] = [] ∧
      ¬ AddressEntry.Compact (run AddressEntry.step (AddressEntry.set (digest [1])) enterAndRemove) := by
  have hrun : Along AddressEntry.step AddressEntry.Fresh (AddressEntry.set (digest [1])) enterAndRemove ∧
      run AddressEntry.step (AddressEntry.set (digest [1])) enterAndRemove = [comma] ∧
      AddressEntry.held [comma] = [] := by decide +kernel
  refine ⟨hrun.1, hrun.2.1, hrun.2.2, ?_⟩
  rw [hrun.2.1, AddressEntry.Compact, hrun.2.2]
  rintro ⟨-, hle, -⟩
  exact absurd hle (by decide)

end Computantis
