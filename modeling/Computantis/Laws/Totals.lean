import Computantis.Laws.Settling

/-! @law totals | name:Exact totals | family:refinement | about:Model/Ledger, Model/Truncate

    Three computations add up the same spice: the verdict on a leaf, the balance of an address and the totals that
    a truncation stores. The verdict is exact for normalised amounts whose totals fit, whatever the order of the
    walk (`funds_verdict`); beside the funds it depends on the parents, which are verified on the same walk.

    Truncation keeps the totals of all addresses in one map and writes each with what went out taken off; a balance
    is read by a fold over the vertices for one address. Over the same vertices the two agree on an address that had
    what it sent and paid nothing to itself (`totals_agree_iff`). A payment to itself is kept as income only, and
    when more went out than came in the drain fails, its error is dropped and the income is written.

    With stored funds that are not normalised two things are added. A drain looks at whole units first, and a
    supply makes only one of the supplementary currency whole; and where the supplementary parts overflow a word,
    that much is lost with the first receipt:

        stored ──receipt──▶ income ──receipt──▶ income ─ ─ ─▶ income ──drain──▶ written
               2^64 lost?          nothing lost -/

namespace Computantis

open Schemes

/-! ### The verdict on a leaf -/

/-- A leaf that is judged by its funds: neither root nor of a trusted node, with spice, a valid weight and valid
    signatures. -/
structure FundsJudged (env : Env) (b : Book) (leaf : Vertex) : Prop where
  known : b.dag.getVertex leaf.hash = some leaf
  notRoot : b.dag.graph.isRoot leaf.hash = false
  spends : leaf.Spends b
  weight : b.isValidWeight leaf.weight = true
  verified : leaf.verify env.verifier = true

theorem fundsJudged_iff {env : Env} {b : Book} {leaf : Vertex} : FundsJudged env b leaf ↔
    b.dag.getVertex leaf.hash = some leaf ∧ b.dag.graph.isRoot leaf.hash = false ∧
      (leaf.transaction.isSpiceTransfer = true ∧ leaf.signerPublicAddress ∉ b.trustedNodesDB) ∧
      b.isValidWeight leaf.weight = true ∧ leaf.verify env.verifier = true :=
  ⟨fun h => ⟨h.known, h.notRoot, h.spends, h.weight, h.verified⟩, fun h => ⟨h.1, h.2.1, h.2.2.1, h.2.2.2.1, h.2.2.2.2⟩⟩

instance (env : Env) (b : Book) (leaf : Vertex) : Decidable (FundsJudged env b leaf) :=
  decidable_of_iff _ fundsJudged_iff.symm

/-- The parents that the leaf declares and has among its ancestors verify. -/
def ParentsVerify (env : Env) (b : Book) (leaf : Vertex) : Prop :=
  ∀ u ∈ b.dag.past leaf.hash, u.hash ≠ leaf.hash → u.hash ∈ leaf.parentHashes → u.verify env.verifier = true

instance (env : Env) (b : Book) (leaf : Vertex) : Decidable (ParentsVerify env b leaf) :=
  inferInstanceAs (Decidable (∀ u ∈ b.dag.past leaf.hash, _ → _ → _))

theorem parentsVerify_iff {env : Env} {b : Book} {leaf : Vertex} : ParentsVerify env b leaf ↔
    ∀ u, b.dag.getVertex u.hash = some u → b.dag.graph.Anc u.hash leaf.hash → u.hash ∈ leaf.parentHashes →
      u.verify env.verifier = true := by
  constructor
  · intro h u hu hanc
    exact h u (Dag.mem_past.mpr ⟨Or.inr hanc, hu⟩) hanc.ne
  · intro h u hu hne
    obtain ⟨hanc, hget⟩ := Dag.mem_past.mp hu
    exact h u hget (hanc.resolve_left hne)

/-- VERDICT (leaf): in whatever order and however often the ancestors are delivered, the leaf is accepted exactly
    when its issuer has issued no more than it has stored and received in the past of the leaf, and the parents
    on the walk verify. -/
theorem funds_verdict {env : Env} {b : Book} {leaf : Vertex} (hleaf : FundsJudged env b leaf)
    (hfit : PastFits env.codec b leaf.hash leaf.transaction.issuerAddress) (order : List Hash) :
    b.validateLeaf env (.calm order) leaf = .ok () ↔
      issued leaf.transaction.issuerAddress (b.dag.past leaf.hash) ≤
          (b.stored env.codec leaf.transaction.issuerAddress).value +
            received leaf.transaction.issuerAddress (b.dag.past leaf.hash) ∧
        ParentsVerify env b leaf := by
  have hworth : 0 ≤ worth env.codec b leaf.hash leaf.transaction.issuerAddress ↔
      issued leaf.transaction.issuerAddress (b.dag.past leaf.hash) ≤
        (b.stored env.codec leaf.transaction.issuerAddress).value +
          received leaf.transaction.issuerAddress (b.dag.past leaf.hash) := by
    rw [worth]
    omega
  rw [validateLeaf_calm_iff hfit hleaf.known, Judged, hworth, parentsVerify_iff]
  simp [hleaf.weight, hleaf.verified, hleaf.notRoot, hleaf.spends]

namespace Transparent

/-- A genesis vertex whose seal has been changed, and a child that spends what it gives. -/
def tampered : Vertex := { root 10 with signature := [] }

def tamperedChild : Vertex := sealed (trx (wallet 7) (wallet 8) ⟨4, 0⟩ [] 3) tampered tampered 1 4

def tamperedBook : Book :=
  { newAccountingBook 0 with
    dag := ((Dag.empty.addVertexByID tampered).bind fun d => (d.addVertexByID tamperedChild).bind fun d =>
      d.addEdge tampered.hash tamperedChild.hash).getD Dag.empty }

/-- Two units of currency, all of it in supplementary currency. -/
def heap : Melange := ⟨0, 2 * 10 ^ 18⟩

/-- A codec that writes the heap as one byte. -/
def heapCodec : Codec :=
  { codec with
    encodeSpice := fun s => if s = heap then [9] else codec.encodeSpice s
    decodeSpice := fun bytes => if bytes = [9] then (heap, true) else codec.decodeSpice bytes }

/-- The heap is stored for `wallet 9`, which spends two units. -/
def spender : Vertex := sealed (trx (wallet 9) (wallet 8) ⟨2, 0⟩ [] 3) (root 10) (root 10) 1 4

def heapBook : Book :=
  { (run (Node.step (env hub)) (start 10) (addEvents spender)).book with
    verticesDB := (∅ : VertexStore).insert (wallet 9) [9] }

/-- The leaf is rejected although all spice is normalised, its totals fit and its issuer has the funds. -/
def RejectedThoughFunded (env : Env) (b : Book) (leaf : Vertex) : Prop :=
  FundsJudged env b leaf ∧ (∀ v ∈ b.dag.all, v.transaction.spice.Norm) ∧
    issued leaf.transaction.issuerAddress b.dag.all < Melange.cap ∧
    (b.stored env.codec leaf.transaction.issuerAddress).value +
      received leaf.transaction.issuerAddress b.dag.all < Melange.cap ∧
    issued leaf.transaction.issuerAddress (b.dag.past leaf.hash) ≤
      (b.stored env.codec leaf.transaction.issuerAddress).value +
        received leaf.transaction.issuerAddress (b.dag.past leaf.hash) ∧
    b.validateLeaf env (.calm []) leaf ≠ .ok ()

instance (env : Env) (b : Book) (leaf : Vertex) : Decidable (RejectedThoughFunded env b leaf) :=
  inferInstanceAs (Decidable (_ ∧ _))

/-- Below a parent that does not verify, and with stored funds that are not normalised. -/
theorem funded_leaves_rejected : RejectedThoughFunded (env hub) tamperedBook tamperedChild ∧
    RejectedThoughFunded ⟨verifier, signer hub, heapCodec⟩ heapBook spender := by
  decide +kernel

/-- `wallet 7` pays four. -/
def pays (receiver : Address) : Vertex := sealed (trx (wallet 7) receiver ⟨4, 0⟩ [] 3) (root 10) (root 10) 1 4

def paidBook : Book := (run (Node.step (env hub)) (start 10) (addEvents (pays (wallet 8)))).book

/-- Four of ten are spent, and the one ancestor is delivered twice. -/
theorem funded_leaf_accepted :
    paidBook.validateLeaf (env hub) (.calm [(root 10).hash, (root 10).hash]) (pays (wallet 8)) = .ok () := by
  obtain ⟨hjudged, hnorm, htotal, hstore, hfunded⟩ : FundsJudged (env hub) paidBook (pays (wallet 8)) ∧
      (∀ v ∈ paidBook.dag.all, v.transaction.spice.Norm) ∧
      (paidBook.dag.all.map fun v => v.transaction.spice.value).sum < Melange.cap ∧
      paidBook.verticesDB.entries = [] ∧
      issued (pays (wallet 8)).transaction.issuerAddress (paidBook.dag.past (pays (wallet 8)).hash) ≤
          (paidBook.stored codec (pays (wallet 8)).transaction.issuerAddress).value +
            received (pays (wallet 8)).transaction.issuerAddress (paidBook.dag.past (pays (wallet 8)).hash) ∧
        ParentsVerify (env hub) paidBook (pays (wallet 8)) := by
    decide +kernel
  have hfit : FundsFit codec paidBook (pays (wallet 8)).transaction.issuerAddress :=
    ((SpiceFits.of_total hnorm htotal).fundsFit (AList.ext hstore) _).1
  exact (funds_verdict hjudged (hfit.past _) _).mpr hfunded

end Transparent

/-! ### The stored totals -/

/-- `set`, `nextVertex` over the list and `saveToStorage`, with a store that works and the addresses in the order
    proposed. -/
def settleInto (codec : Codec) (f : FundsMemMap) (a : Address) (stored : Melange) (vs : List Vertex)
    (order : List Address) (db : VertexStore) : VertexStore × Option Err :=
  let f := fundsOver (FundsMemMap.set f a stored) vs
  saveToStorage codec (fun _ => false) f (enumerate order f.keys) db

/-- The amount that is written for the address. -/
def settledTotal (f : FundsMemMap) (a : Address) (stored : Melange) (vs : List Vertex) : Melange :=
  FundsMemMap.settled (FundsMemMap.get (fundsOver (FundsMemMap.set f a stored) vs) a)

/-- What is written for the address is what is stored and came in less what went out, by the fold over the same
    vertices in the same order; and there is an error when more went out. -/
def TotalsAgree (codec : Codec) (a : Address) (stored : Melange) (vs : List Vertex) : Prop :=
  ∀ f ws order db, vs.Perm ws →
    (issued a vs ≤ stored.value + received a vs → ∃ m pots db',
      settleInto codec f a stored ws order db = (db', none) ∧ db'.lookup a = some (codec.encodeSpice m) ∧
      foldFunds a ws Pots.zero = .ok pots ∧ m.value + pots.spiceOut.value = stored.value + pots.spiceIn.value) ∧
    (stored.value + received a vs < issued a vs → (settleInto codec f a stored ws order db).2 ≠ none)

/-- CONDITION: the address pays nothing to itself. -/
def PaysOthers (a : Address) (vs : List Vertex) : Prop :=
  ∀ v ∈ vs, v.transaction.issuerAddress = a → v.transaction.receiverAddress = a → v.transaction.spice.value = 0

instance (a : Address) (vs : List Vertex) : Decidable (PaysOthers a vs) :=
  inferInstanceAs (Decidable (∀ v ∈ vs, _ → _))

section Totals

variable {codec : Codec} {f : FundsMemMap} {a : Address} {stored : Melange} {vs ws : List Vertex}

theorem sentBy_eq_iff (v : Vertex) : sentBy a v = issuedBy a v ↔
    (v.transaction.issuerAddress = a → v.transaction.receiverAddress = a → v.transaction.spice.value = 0) := by
  rw [sentBy, issuedBy]
  by_cases hi : v.transaction.issuerAddress = a
  · by_cases hr : v.transaction.receiverAddress = a <;> simp [hi, hr, eq_comm]
  · simp [hi]

theorem sent_eq_issued_iff : sent a vs = issued a vs ↔ PaysOthers a vs := by
  induction vs with
  | nil => simp [PaysOthers]
  | cons v vs ih =>
    have hhead : sentBy a v ≤ issuedBy a v := sentBy_le a v
    have htail : sent a vs ≤ issued a vs := sent_le_issued a vs
    rw [PaysOthers, List.forall_mem_cons, ← sentBy_eq_iff, ← PaysOthers, ← ih, sent_cons, issued_cons]
    omega

/-- What is written is what the chain of the receipts has led to, drained of the chain of the remittances. -/
theorem settledTotal_eq (f : FundsMemMap) (a : Address) (stored : Melange) (ws : List Vertex) :
    settledTotal f a stored ws =
      ((stored.supplied (receipts a ws)).drain (Melange.zero.supplied (remittances a ws)) Melange.zero).src := by
  have hget : FundsMemMap.get (FundsMemMap.set f a stored) a = ⟨stored, ⟨0, 0⟩⟩ := by
    rw [FundsMemMap.set, FundsMemMap.get_insert, if_pos rfl]
  rw [settledTotal, FundsMemMap.get_fundsOver, hget]
  rfl

theorem receipts_perm (a : Address) (h : vs.Perm ws) : (receipts a vs).Perm (receipts a ws) := (h.filter _).map _

theorem exists_first {r : Melange} (h : r ∈ receipts a vs) : ∃ ws rs, vs.Perm ws ∧ receipts a ws = r :: rs := by
  obtain ⟨v, hv, rfl⟩ := List.mem_map.mp h
  obtain ⟨hmem, hreceipt⟩ := List.mem_filter.mp hv
  obtain ⟨l, l', rfl⟩ := List.append_of_mem hmem
  refine ⟨v :: (l ++ l'), receipts a (l ++ l'), List.perm_middle, ?_⟩
  have hone : receipts a [v] = [v.transaction.spice] := by
    rw [receipts, List.filter_cons, if_pos hreceipt]
    rfl
  rw [receipts_cons, hone]
  rfl

theorem wholes_perm (m : Melange) {rs rs' : List Melange} (h : rs.Perm rs') : m.wholes rs = m.wholes rs' := by
  rw [Melange.wholes, Melange.wholes, (h.map fun r => r.currency.toNat).sum_eq,
    (h.map fun r => r.supplementaryCurrency.toNat).sum_eq, h.length_eq]

theorem settleInto_spec (codec : Codec) (f : FundsMemMap) (a : Address) (stored : Melange) (ws : List Vertex)
    (order : List Address) (db : VertexStore) : ∃ db', settleInto codec f a stored ws order db = (db', none) ∧
      db'.lookup a = some (codec.encodeSpice (settledTotal f a stored ws)) := by
  have hmem : a ∈ fundsOver (FundsMemMap.set f a stored) ws :=
    mem_fundsOver.mpr (Or.inl (by rw [FundsMemMap.set, AList.mem_insert]; exact Or.inl rfl))
  have hworks : ∀ x : Address, (fun _ => false) x = false := fun _ => rfl
  obtain ⟨db', hsave⟩ := saveToStorage_isOk codec hworks
    (enumerate order (fundsOver (FundsMemMap.set f a stored) ws).keys) db
  refine ⟨db', hsave, ?_⟩
  rw [saveToStorage_ok hsave a, if_pos (mem_enumerate.mpr (AList.mem_keys.mp hmem)), settledTotal]

section Written

variable (f : FundsMemMap) (hnorm : AllNorm vs) (hissued : issued a vs < Melange.cap)
  (hreceived : stored.value + received a vs < Melange.cap) (hperm : vs.Perm ws)

include hnorm hissued hperm

theorem remitted : (Melange.zero.supplied (remittances a ws)).Norm ∧
    (Melange.zero.supplied (remittances a ws)).value = sent a vs := by
  have hsent : sent a vs ≤ issued a vs := sent_le_issued a vs
  obtain ⟨hn, hv⟩ := Melange.supplied_exact (remittances a ws) Melange.norm_zero ((hnorm.perm hperm).remittances a) (by
    rw [Melange.value_zero, total_remittances, ← sent_perm a hperm]
    omega)
  rw [Melange.value_zero, total_remittances, ← sent_perm a hperm, Nat.zero_add] at hv
  exact ⟨hn, hv⟩

include hreceived

/-- EXACT (written, first receipt without loss): what was sent is taken off, unless it is more, or more in whole
    units. -/
theorem settledTotal_fits (hfirst : ∀ r ∈ (receipts a ws).head?, ¬ stored.Wraps r) :
    (settledTotal f a stored ws).value =
      if sent a vs ≤ stored.value + received a vs ∧ sent a vs / 10 ^ 18 ≤ stored.wholes (receipts a vs) then
        stored.value + received a vs - sent a vs
      else stored.value + received a vs := by
  obtain ⟨hn, hout⟩ := remitted hnorm hissued hperm
  obtain ⟨hin, hwhole⟩ := Melange.supplied_fits (receipts a ws) ((hnorm.perm hperm).receipts a)
    (by rwa [total_receipts, ← received_perm a hperm]) hfirst
  rw [total_receipts, ← received_perm a hperm] at hin
  rw [settledTotal_eq, Melange.drain_value hn, hout, hin, hwhole, wholes_perm stored (receipts_perm a hperm)]

theorem settledTotal_wraps {r : Melange} {rs : List Melange} (hrs : receipts a ws = r :: rs) (hw : stored.Wraps r) :
    2 ^ 64 ≤ stored.value + received a vs ∧ (settledTotal f a stored ws).value =
      if sent a vs + 2 ^ 64 ≤ stored.value + received a vs then stored.value + received a vs - 2 ^ 64 - sent a vs
      else stored.value + received a vs - 2 ^ 64 := by
  obtain ⟨hn, hout⟩ := remitted hnorm hissued hperm
  have htotal : Melange.total (r :: rs) = received a vs := by rw [← hrs, total_receipts, ← received_perm a hperm]
  obtain ⟨hin, hlost⟩ := Melange.supplied_wraps (hrs ▸ (hnorm.perm hperm).receipts a) (by rwa [htotal]) hw
  rw [htotal] at hlost
  refine ⟨by omega, ?_⟩
  rw [settledTotal_eq, Melange.drain_value hn, hout, hrs, hin.currency_eq]
  split <;> split <;> omega

end Written

theorem foldFunds_total (hnorm : AllNorm vs) (hissued : issued a vs < Melange.cap)
    (hreceived : stored.value + received a vs < Melange.cap) (hperm : vs.Perm ws) :
    ∃ pots, foldFunds a ws Pots.zero = .ok pots ∧ pots.spiceOut.value = issued a vs ∧
      pots.spiceIn.value = received a vs := by
  have hzero : Pots.zero.spiceOut.value = 0 ∧ Pots.zero.spiceIn.value = 0 := by simp [Pots.zero]
  rw [issued_perm a hperm] at hissued ⊢
  rw [received_perm a hperm] at hreceived ⊢
  obtain ⟨pots, hfold, -, hout, hin⟩ := foldFunds_exact (a := a) Pots.norm_zero (hnorm.perm hperm)
    (by omega) (by omega)
  exact ⟨pots, hfold, by omega, by omega⟩

theorem totalsAgree_iff (hc : codec.Faithful) (hnorm : AllNorm vs) (hissued : issued a vs < Melange.cap)
    (hreceived : stored.value + received a vs < Melange.cap) :
    TotalsAgree codec a stored vs ↔ issued a vs ≤ stored.value + received a vs ∧ ∀ f ws, vs.Perm ws →
      (settledTotal f a stored ws).value + issued a vs = stored.value + received a vs := by
  constructor
  · intro h
    have hcovered : issued a vs ≤ stored.value + received a vs := by
      by_contra hover
      obtain ⟨db', hsettle, -⟩ := settleInto_spec codec ∅ a stored vs [] ∅
      refine (h ∅ vs [] ∅ (List.Perm.refl vs)).2 (not_le.mp hover) ?_
      rw [hsettle]
    refine ⟨hcovered, ?_⟩
    intro f ws hperm
    obtain ⟨m, pots, db', hsettle, hlook, hfold, hvalue⟩ := (h f ws [] ∅ hperm).1 hcovered
    obtain ⟨db'', hsettle', hlook'⟩ := settleInto_spec codec f a stored ws [] ∅
    obtain ⟨pots', hfold', hout, hin⟩ := foldFunds_total hnorm hissued hreceived hperm
    cases hsettle.symm.trans hsettle'
    cases hfold.symm.trans hfold'
    -- what is written is read back
    have hsame := congrArg codec.decodeSpice (Option.some.inj (hlook.symm.trans hlook'))
    rw [hc.spice, hc.spice] at hsame
    cases hsame
    omega
  · rintro ⟨hcovered, hexact⟩ f ws order db hperm
    obtain ⟨db', hsettle, hlook⟩ := settleInto_spec codec f a stored ws order db
    obtain ⟨pots, hfold, hout, hin⟩ := foldFunds_total hnorm hissued hreceived hperm
    refine ⟨fun _ => ⟨_, pots, db', hsettle, hlook, hfold, ?_⟩, fun hover => absurd hcovered (not_le.mpr hover)⟩
    have hvalue := hexact f ws hperm
    omega

/-- CONDITION for visiting orders that begin without a loss: the address pays nothing to itself, and has as many
    whole units as it issued. -/
def PaidInFull (a : Address) (stored : Melange) (vs : List Vertex) : Prop :=
  PaysOthers a vs ∧ issued a vs / 10 ^ 18 ≤ stored.wholes (receipts a vs)

/-- CONDITION for those that begin with a loss: it is made up for by chance, since as much was paid to itself, or
    since just as much was issued and is not drained. -/
def LossCancels (a : Address) (stored : Melange) (vs : List Vertex) : Prop :=
  issued a vs = 2 ^ 64 + if sent a vs + 2 ^ 64 ≤ stored.value + received a vs then sent a vs else 0

theorem settled_exact_iff (hnorm : AllNorm vs) (hissued : issued a vs < Melange.cap)
    (hreceived : stored.value + received a vs < Melange.cap) (hcovered : issued a vs ≤ stored.value + received a vs) :
    (∀ f ws, vs.Perm ws → (settledTotal f a stored ws).value + issued a vs = stored.value + received a vs) ↔
      (∀ r ∈ receipts a vs, stored.Wraps r → LossCancels a stored vs) ∧
      ((receipts a vs = [] ∨ ∃ r ∈ receipts a vs, ¬ stored.Wraps r) → PaidInFull a stored vs) := by
  have hsent : sent a vs ≤ issued a vs := sent_le_issued a vs
  have hloss : ∀ f ws r rs, vs.Perm ws → receipts a ws = r :: rs → stored.Wraps r →
      ((settledTotal f a stored ws).value + issued a vs = stored.value + received a vs ↔ LossCancels a stored vs) := by
    intro f ws r rs hperm hrs hw
    obtain ⟨hlarge, hvalue⟩ := settledTotal_wraps f hnorm hissued hreceived hperm hrs hw
    rw [hvalue, LossCancels]
    split <;> omega
  have hfull : ∀ f ws, vs.Perm ws → (∀ r ∈ (receipts a ws).head?, ¬ stored.Wraps r) →
      ((settledTotal f a stored ws).value + issued a vs = stored.value + received a vs ↔ PaidInFull a stored vs) := by
    intro f ws hperm hfirst
    rw [settledTotal_fits f hnorm hissued hreceived hperm hfirst, PaidInFull, ← sent_eq_issued_iff]
    split
    next h => omega
    next h =>
      refine ⟨fun hexact => ?_, fun ⟨hall, hwhole⟩ => absurd ⟨by omega, hall ▸ hwhole⟩ h⟩
      -- nothing was issued, and that is always there
      have hzero : sent a vs = 0 := by omega
      rw [hzero] at h
      simp at h
  constructor
  · intro h
    refine ⟨fun r hr hw => ?_, ?_⟩
    · obtain ⟨ws, rs, hperm, hrs⟩ := exists_first hr
      exact (hloss ∅ ws r rs hperm hrs hw).mp (h ∅ ws hperm)
    · rintro (hnil | ⟨r, hr, hw⟩)
      · exact (hfull ∅ vs (List.Perm.refl vs) (by simp [hnil])).mp (h ∅ vs (List.Perm.refl vs))
      · obtain ⟨ws, rs, hperm, hrs⟩ := exists_first hr
        exact (hfull ∅ ws hperm (by simpa [hrs] using hw)).mp (h ∅ ws hperm)
  · rintro ⟨hlosses, hfulls⟩ f ws hperm
    have hsame := receipts_perm a hperm
    cases hrs : receipts a ws with
    | nil =>
      rw [hrs] at hsame
      exact (hfull f ws hperm (by simp [hrs])).mpr (hfulls (Or.inl hsame.eq_nil))
    | cons r rs =>
      have hr : r ∈ receipts a vs := hsame.mem_iff.mpr (hrs ▸ List.mem_cons_self ..)
      by_cases hw : stored.Wraps r
      · exact (hloss f ws r rs hperm hrs hw).mpr (hlosses r hr hw)
      · exact (hfull f ws hperm (by simpa [hrs] using hw)).mpr (hfulls (Or.inr ⟨r, hr, hw⟩))

end Totals

/-- VERDICT: the totals agree exactly when the address issued no more than it had and each order of its receipts
    is exact, those that lose a word at the start and those that do not; when what is stored is normalised, that
    is when it issued no more than it had and paid nothing to itself. -/
theorem totals_agree_iff {codec : Codec} (hc : codec.Faithful) {a : Address} {stored : Melange} {vs : List Vertex}
    (hnorm : AllNorm vs) (hissued : issued a vs < Melange.cap)
    (hreceived : stored.value + received a vs < Melange.cap) :
    (TotalsAgree codec a stored vs ↔ issued a vs ≤ stored.value + received a vs ∧
      (∀ r ∈ receipts a vs, stored.Wraps r → LossCancels a stored vs) ∧
      ((receipts a vs = [] ∨ ∃ r ∈ receipts a vs, ¬ stored.Wraps r) → PaidInFull a stored vs)) ∧
    (stored.Norm → (TotalsAgree codec a stored vs ↔
      issued a vs ≤ stored.value + received a vs ∧ PaysOthers a vs)) := by
  have hgeneral : TotalsAgree codec a stored vs ↔ issued a vs ≤ stored.value + received a vs ∧
      (∀ r ∈ receipts a vs, stored.Wraps r → LossCancels a stored vs) ∧
      ((receipts a vs = [] ∨ ∃ r ∈ receipts a vs, ¬ stored.Wraps r) → PaidInFull a stored vs) :=
    (totalsAgree_iff hc hnorm hissued hreceived).trans
      (and_congr_right fun hcovered => settled_exact_iff hnorm hissued hreceived hcovered)
  refine ⟨hgeneral, fun hs => hgeneral.trans (and_congr_right fun hcovered => ?_)⟩
  have hfits : ∀ r ∈ receipts a vs, ¬ stored.Wraps r := fun r hr => hs.roomy.not_wraps (hnorm.receipts a r hr)
  have hwhole : issued a vs / 10 ^ 18 ≤ stored.wholes (receipts a vs) := by
    rw [Melange.wholes_of_norm hs (hnorm.receipts a) (by rwa [total_receipts]), total_receipts]
    exact Nat.div_le_div_right hcovered
  constructor
  · rintro ⟨-, hfull⟩
    refine (hfull ?_).1
    rcases eq_or_ne (receipts a vs) [] with hnil | hne
    · exact Or.inl hnil
    · obtain ⟨r, hr⟩ := List.exists_mem_of_ne_nil _ hne
      exact Or.inr ⟨r, hr, hfits r hr⟩
  · exact fun hall => ⟨fun r hr hw => absurd hw (hfits r hr), fun _ => ⟨hall, hwhole⟩⟩

/-! ### Totals that disagree -/

namespace Transparent

theorem pays_norm (receiver : Address) : AllNorm [pays receiver] := by
  intro v hv
  rw [List.mem_singleton.mp hv]
  exact (by decide : (⟨4, 0⟩ : Melange).Norm)

/-- Who has ten and pays four to itself gets fourteen stored; who has one and pays four gets one stored and no
    error. -/
theorem totals_disagree :
    settledTotal ∅ (wallet 7) ⟨10, 0⟩ [pays (wallet 7)] = ⟨14, 0⟩ ∧
      ¬ TotalsAgree codec (wallet 7) ⟨10, 0⟩ [pays (wallet 7)] ∧
      (settleInto codec ∅ (wallet 7) ⟨1, 0⟩ [pays (wallet 8)] [] ∅).2 = none ∧
      settledTotal ∅ (wallet 7) ⟨1, 0⟩ [pays (wallet 8)] = ⟨1, 0⟩ ∧
      ¬ TotalsAgree codec (wallet 7) ⟨1, 0⟩ [pays (wallet 8)] := by
  obtain ⟨hself, hissued, hreceived, hdiffers, hover, hissued', hreceived', hdebt⟩ :
      settledTotal ∅ (wallet 7) ⟨10, 0⟩ [pays (wallet 7)] = ⟨14, 0⟩ ∧
      issued (wallet 7) [pays (wallet 7)] < Melange.cap ∧
      (⟨10, 0⟩ : Melange).value + received (wallet 7) [pays (wallet 7)] < Melange.cap ∧
      (settledTotal ∅ (wallet 7) ⟨10, 0⟩ [pays (wallet 7)]).value + issued (wallet 7) [pays (wallet 7)] ≠
        (⟨10, 0⟩ : Melange).value + received (wallet 7) [pays (wallet 7)] ∧
      settledTotal ∅ (wallet 7) ⟨1, 0⟩ [pays (wallet 8)] = ⟨1, 0⟩ ∧
      issued (wallet 7) [pays (wallet 8)] < Melange.cap ∧
      (⟨1, 0⟩ : Melange).value + received (wallet 7) [pays (wallet 8)] < Melange.cap ∧
      ¬ issued (wallet 7) [pays (wallet 8)] ≤ (⟨1, 0⟩ : Melange).value + received (wallet 7) [pays (wallet 8)] := by
    decide +kernel
  obtain ⟨db', hsettle, -⟩ := settleInto_spec codec ∅ (wallet 7) ⟨1, 0⟩ [pays (wallet 8)] [] ∅
  refine ⟨hself, ?_, by rw [hsettle], hover, ?_⟩
  · intro hagree
    exact hdiffers (((totalsAgree_iff codec_faithful (pays_norm _) hissued hreceived).mp hagree).2 ∅ _
      (List.Perm.refl _))
  · intro hagree
    exact hdebt ((totalsAgree_iff codec_faithful (pays_norm _) hissued' hreceived').mp hagree).1

/-- Who has ten and pays four to somebody else gets six stored, which is what the fold says. -/
theorem payment_totals_agree : TotalsAgree codec (wallet 7) ⟨10, 0⟩ [pays (wallet 8)] ∧
    settledTotal ∅ (wallet 7) ⟨10, 0⟩ [pays (wallet 8)] = ⟨6, 0⟩ := by
  obtain ⟨hissued, hreceived, hcovered, hsix⟩ : issued (wallet 7) [pays (wallet 8)] < Melange.cap ∧
      (⟨10, 0⟩ : Melange).value + received (wallet 7) [pays (wallet 8)] < Melange.cap ∧
      (issued (wallet 7) [pays (wallet 8)] ≤
        (⟨10, 0⟩ : Melange).value + received (wallet 7) [pays (wallet 8)] ∧ PaysOthers (wallet 7) [pays (wallet 8)]) ∧
      settledTotal ∅ (wallet 7) ⟨10, 0⟩ [pays (wallet 8)] = ⟨6, 0⟩ := by
    decide +kernel
  exact ⟨((totals_agree_iff codec_faithful (pays_norm _) hissued hreceived).2 (by decide)).mpr hcovered, hsix⟩

end Transparent

end Computantis
