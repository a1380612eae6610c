import Computantis.Laws.Gossiping
import Computantis.Laws.Peering
import Computantis.Laws.Verifying
import Computantis.Model.Endpoints

/-! @law robustness | name:Messages that end the process | family:safety | about:Model/Endpoints

    No handler recovers from a panic, so a message that makes an array of a short slice or reads a missing
    message ends the process. Some handlers look before they read, and some only log what they have found: the
    flash memory reports a hash of the wrong length, and `GossipVrx` converts it all the same. And `Verify` itself
    panics over an address with a good checksum and a key of the wrong size, wherever the hash is right.

        absent message      checked by Propose, Confirm, Reject, GossipVrx, GossipTrx
        absent transaction  checked in front of a vertex
        absent spice        checked nowhere
        absent gossiper     checked nowhere
        short slice         checked nowhere (an empty hash by ProtoTrxToTrx)
        size of a key       checked nowhere -/

namespace Computantis

open Schemes

/-! ### Conversions -/

theorem Hash.ofSlice_cases (b : Bytes) :
    b.length < 32 ∧ Hash.ofSlice b = .error .panicked ∨ 32 ≤ b.length ∧ ∃ hash, Hash.ofSlice b = .ok hash := by
  by_cases h : b.length < 32
  · exact Or.inl ⟨h, Hash.ofSlice_short h⟩
  · exact Or.inr ⟨not_lt.mp h, Hash.ofSlice_long h⟩

/-- The transaction can be read: its hash is long enough, and it has spice. -/
def ProtoTransaction.Whole (p : ProtoTransaction) : Prop := 32 ≤ p.hash.length ∧ p.spice.isSome = true

instance (p : ProtoTransaction) : Decidable p.Whole := inferInstanceAs (Decidable (_ ∧ _))

theorem Transaction.ofProto_cases (p : ProtoTransaction) :
    ¬ p.Whole ∧ Transaction.ofProto p = .error .panicked ∨ p.Whole ∧ ∃ t, Transaction.ofProto p = .ok t := by
  unfold Transaction.ofProto ProtoTransaction.Whole
  rcases Hash.ofSlice_cases p.hash with ⟨hshort, hh⟩ | ⟨hlong, hash, hh⟩
  · exact Or.inl ⟨fun h => absurd h.1 (not_le.mpr hshort), by rw [hh]; rfl⟩
  · cases hs : p.spice with
    | none => exact Or.inl ⟨by simp, by rw [hh]; rfl⟩
    | some s => exact Or.inr ⟨⟨hlong, rfl⟩, _, by rw [hh]; rfl⟩

/-- What `ProtoTrxToTrx` takes for empty. -/
def ProtoTransaction.Blank (p : ProtoTransaction) : Prop :=
  p.subject = [] ∨ p.issuerAddress = [] ∨ p.receiverAddress = [] ∨ p.hash.length = 0 ∨ p.createdAt = 0 ∨
    p.issuerSignature.length = 0

/-- The transaction is missing, taken for empty, or whole. -/
def Convertible : Option ProtoTransaction → Prop
  | none => True
  | some p => p.Blank ∨ p.Whole

theorem protoTrxToTrx_panics_iff (req : Option ProtoTransaction) :
    protoTrxToTrx req = .error .panicked ↔ ¬ Convertible req := by
  cases req with
  | none => exact iff_of_false (by rintro ⟨⟩) (not_not.mpr trivial)
  | some p =>
    rw [protoTrxToTrx, Convertible, ProtoTransaction.Blank]
    split
    next hblank => exact iff_of_false (by rintro ⟨⟩) (not_not.mpr (Or.inl hblank))
    next hfull =>
      rw [or_iff_right hfull]
      rcases Transaction.ofProto_cases p with ⟨hnot, he⟩ | ⟨hwhole, t, ht⟩
      · exact iff_of_true he hnot
      · exact iff_of_false (by rw [ht]; rintro ⟨⟩) (not_not.mpr hwhole)

/-- The vertex can be read: its transaction is there and whole, and its three hashes are long enough. -/
def ProtoVertex.Whole (vg : ProtoVertex) : Prop :=
  (∃ p, vg.transaction = some p ∧ p.Whole) ∧ 32 ≤ vg.hash.length ∧ 32 ≤ vg.leftParentHash.length ∧
    32 ≤ vg.rightParentHash.length

theorem mapProtoVertex_panics_iff (vg : ProtoVertex) :
    mapProtoVertexToAccountantVertex vg = .error .panicked ↔ ¬ vg.Whole := by
  unfold mapProtoVertexToAccountantVertex ProtoVertex.Whole
  cases htrx : vg.transaction with
  | none => exact iff_of_true rfl (by simp)
  | some p =>
    simp only [Option.some.injEq, exists_eq_left']
    rcases Transaction.ofProto_cases p with ⟨hnot, he⟩ | ⟨hwhole, t, ht⟩
    · exact iff_of_true (by rw [he]; rfl) fun h => hnot h.1
    rcases Hash.ofSlice_cases vg.hash with ⟨hshort, hh⟩ | ⟨hlong, hash, hh⟩
    · exact iff_of_true (by rw [ht, hh]; rfl) fun h => absurd h.2.1 (not_le.mpr hshort)
    rcases Hash.ofSlice_cases vg.leftParentHash with ⟨hshort, hl⟩ | ⟨hlongl, left, hl⟩
    · exact iff_of_true (by rw [ht, hh, hl]; rfl) fun h => absurd h.2.2.1 (not_le.mpr hshort)
    rcases Hash.ofSlice_cases vg.rightParentHash with ⟨hshort, hr⟩ | ⟨hlongr, right, hr⟩
    · exact iff_of_true (by rw [ht, hh, hl, hr]; rfl) fun h => absurd h.2.2.2 (not_le.mpr hshort)
    · exact iff_of_false (by rw [ht, hh, hl, hr]; rintro ⟨⟩) (not_not.mpr ⟨hwhole, hlong, hlongl, hlongr⟩)

/-- The transaction can be converted, and the check that the handler makes of it returns. -/
def Checkable (check : Transaction → Verdict) (req : Option ProtoTransaction) : Prop :=
  Convertible req ∧ ∀ trx, protoTrxToTrx req = .ok trx → check trx ≠ .panicked

theorem trxBreaks_iff (check : Transaction → Verdict) (req : Option ProtoTransaction) :
    TrxBreaks check req ↔ ¬ Checkable check req := by
  rw [TrxBreaks, protoTrxToTrx_panics_iff, Checkable, not_and_or]
  push Not
  rfl

/-! ### Gossipers -/

section Gossipers

variable {v : Verifier} {hash : Hash} {s : List (Option ProtoGossiper)}

/-- Every gossiper is there, has a digest that is long enough, and an address over which `Verify` returns. -/
def GossipersWhole (v : Verifier) (hash : Hash) (s : List (Option ProtoGossiper)) : Prop :=
  ∀ m ∈ s, ∃ g, m = some g ∧ ¬ g.Panics v hash

/-- The gossipers that are there. -/
def present (s : List (Option ProtoGossiper)) : List ProtoGossiper := s.filterMap id

theorem GossipersWhole.eq_map (h : GossipersWhole v hash s) : s = (present s).map some := by
  induction s with
  | nil => rfl
  | cons m s ih =>
    obtain ⟨g, rfl, -⟩ := h m (List.mem_cons_self ..)
    have hrest := ih fun k hk => h k (List.mem_cons_of_mem _ hk)
    exact congrArg (some g :: ·) hrest

theorem GossipersWhole.not_breaking (h : GossipersWhole v hash s) : ¬ Breaking v hash (present s) := by
  rintro ⟨g, hg, hpanics⟩
  obtain ⟨m, hm, hmg⟩ := List.mem_filterMap.mp hg
  obtain ⟨k, rfl, hreturns⟩ := h m hm
  cases hmg
  exact hreturns hpanics

theorem verifyWireGossipers_map (v : Verifier) (hash : Hash) (gs : List ProtoGossiper) : ∀ m : Gossipers,
    verifyWireGossipers v hash (gs.map some) m = verifyGossipers v hash gs m := by
  induction gs with
  | nil => exact fun _ => rfl
  | cons g gs ih =>
    intro m
    rw [List.map_cons, verifyWireGossipers, verifyGossipers]
    cases Hash.ofSlice g.digest with
    | error e => rfl
    | ok digest =>
      cases hcheck : v.check (createGossiperMessageToSign g.address hash) g.signature digest g.address with
      | accepted | refused | panicked => simp only [hcheck, ih]

theorem verifyWireGossipers_panics (h : ¬ GossipersWhole v hash s) :
    ∀ m : Gossipers, verifyWireGossipers v hash s m = .error .panicked := by
  induction s with
  | nil => exact absurd (by simp [GossipersWhole]) h
  | cons k s ih =>
    intro m
    cases k with
    | none => rfl
    | some g =>
      have hrest : ¬ g.Panics v hash → ¬ GossipersWhole v hash s := fun hreturns hs => h fun k hk => by
        rcases List.mem_cons.mp hk with rfl | hk
        · exact ⟨g, rfl, hreturns⟩
        · exact hs k hk
      rw [verifyWireGossipers]
      rcases Hash.ofSlice_cases g.digest with ⟨-, he⟩ | ⟨hlong, digest, hok⟩
      · rw [he]
      · rw [ProtoGossiper.Panics, Verifier.breaks_iff hok] at hrest
        rw [hok]
        simp only
        cases hcheck : v.check (createGossiperMessageToSign g.address hash) g.signature digest g.address with
        | panicked => rfl
        | accepted | refused => exact ih (hrest (by simp [hcheck])) _

theorem verifyWireGossipers_panics_iff (v : Verifier) (hash : Hash) (s : List (Option ProtoGossiper)) :
    verifyWireGossipers v hash s ∅ = .error .panicked ↔ ¬ GossipersWhole v hash s := by
  constructor
  · intro h hs
    rw [hs.eq_map, verifyWireGossipers_map] at h
    obtain ⟨m, hm, -⟩ := verifyGossipers_ok v hash hs.not_breaking ∅
    rw [hm] at h
    cases h
  · exact fun h => verifyWireGossipers_panics h ∅

end Gossipers

/-! ### Handlers of the gossip -/

section Gossip

variable {env : ServerEnv} {c : GossipMeets}

theorem spreadWire_map (g : GossipNode) (hash : Bytes) (gs : List ProtoGossiper)
    (process : GossipNode → GossipNode × Except GossipError Unit) (wrap : List ProtoGossiper → GossipMsg) :
    g.spreadWire env c hash (gs.map some) process wrap = g.spread env c hash gs process wrap := by
  unfold GossipNode.spreadWire GossipNode.spread
  cases Hash.ofSlice hash with
  | error e => rfl
  | ok h =>
    have hmap := verifyWireGossipers_map env.ledger.verifier h gs ∅
    cases hset : verifyGossipers env.ledger.verifier h gs ∅ with
    | error e => simp only [hmap, hset]
    | ok set =>
      by_cases hself : env.ledger.signer.address ∈ set
      · simp only [hmap, hset, if_pos hself]
      · cases process g with
        | mk g' res => cases res <;> simp only [hmap, hset, if_neg hself]

theorem gossipWireVrx_map (g : GossipNode) (vertex : Option ProtoVertex) (gs : List ProtoGossiper) :
    g.gossipWireVrx env c (some ⟨vertex, gs.map some⟩) = g.gossipVrx env c (some ⟨vertex, gs⟩) := by
  cases vertex with
  | none => rfl
  | some p => simp only [GossipNode.gossipWireVrx, GossipNode.gossipVrx, spreadWire_map]

theorem gossipWireTrx_map (g : GossipNode) (trx : Option ProtoTransaction) (gs : List ProtoGossiper) :
    g.gossipWireTrx env c (some ⟨trx, gs.map some⟩) = g.gossipTrx env c (some ⟨trx, gs⟩) := by
  cases trx with
  | none => rfl
  | some p => simp only [GossipNode.gossipWireTrx, GossipNode.gossipTrx, spreadWire_map]

/-- The message can be processed: it is taken for a copy; or its hash can be read and its gossipers verified, and
    the node has signed it or can process the item. -/
def Spreadable (env : ServerEnv) (c : GossipMeets) (g : GossipNode) (hash : Bytes) (s : List (Option ProtoGossiper))
    (readable : Prop) : Prop :=
  Known c g.flash hash ∨
    ∃ h, Hash.ofSlice hash = .ok h ∧ GossipersWhole env.ledger.verifier h s ∧
      (Signed env h (present s) ∨ readable)

theorem unlessSeen_panics_iff (env : ServerEnv) (c : GossipMeets) (g : GossipNode) (hash : Bytes)
    (s : List (Option ProtoGossiper)) {process : GossipNode → GossipNode × Except GossipError Unit}
    (wrap : List ProtoGossiper → GossipMsg) {readable : Prop}
    (hp : ∀ flash, (process { g with flash }).2 = .error (.wire .panicked) ↔ ¬ readable) :
    (g.unlessSeen c hash fun g => g.spreadWire env c hash s process wrap).2.2 = .error (.wire .panicked) ↔
      ¬ Spreadable env c g hash s readable := by
  by_cases hknown : Known c g.flash hash
  · rw [unlessSeen_known c g hash hknown]
    exact iff_of_false (by rintro ⟨⟩) (not_not.mpr (Or.inl hknown))
  rw [unlessSeen_unknown c g hash hknown, Spreadable, or_iff_right hknown]
  have hp' := hp (c.notes g.flash hash)
  generalize { g with flash := c.notes g.flash hash } = g' at hp' ⊢
  rcases Hash.ofSlice_cases hash with ⟨-, he⟩ | ⟨-, h, hh⟩
  · refine iff_of_true ?_ ?_
    · simp only [GossipNode.spreadWire, he]
    · rintro ⟨h, hok, -⟩
      rw [he] at hok
      cases hok
  by_cases hs : GossipersWhole env.ledger.verifier h s
  · have hrest : (∃ k, Hash.ofSlice hash = .ok k ∧ GossipersWhole env.ledger.verifier k s ∧
        (Signed env k (present s) ∨ readable)) ↔ Signed env h (present s) ∨ readable := by
      constructor
      · rintro ⟨k, hk, -, hor⟩
        cases hh.symm.trans hk
        exact hor
      · exact fun hor => ⟨h, hh, hs, hor⟩
    have hwhole : g'.spreadWire env c hash s process wrap = g'.spread env c hash (present s) process wrap := by
      rw [hs.eq_map, spreadWire_map, ← hs.eq_map]
    rw [hrest, hwhole]
    by_cases hsigned : Signed env h (present s)
    · rw [spread_signed hh hs.not_breaking hsigned]
      exact iff_of_false (by rintro ⟨⟩) (not_not.mpr (Or.inl hsigned))
    · rw [or_iff_right hsigned, ← hp']
      generalize hres : process g' = res
      obtain ⟨g1, e | u⟩ := res
      · rw [spread_error hh hs.not_breaking hsigned hres]
      · rw [spread_ok hh hs.not_breaking hsigned hres]
  · refine iff_of_true ?_ ?_
    · simp only [GossipNode.spreadWire, hh, verifyWireGossipers_panics hs]
    · rintro ⟨k, hk, hwhole, -⟩
      cases hh.symm.trans hk
      exact hs hwhole

/-- The vertex can be processed: it can be converted, and `AddLeaf` returns. -/
def ProtoVertex.Addable (env : Env) (b : Book) (faults : Faults) (p : ProtoVertex) : Prop :=
  p.Whole ∧ ∀ v, mapProtoVertexToAccountantVertex p = .ok v → ¬ AddPanics env b v faults

theorem processVrx_panics_iff (c : GossipMeets) (p : ProtoVertex) {g : GossipNode} (hs : g.book.Sturdy env.ledger) :
    (g.processVrx env c p).2 = .error (.wire .panicked) ↔
      ¬ (p.transaction = none ∨ p.Addable env.ledger g.book c.ledger) := by
  unfold GossipNode.processVrx
  cases htrx : p.transaction with
  | none => exact iff_of_false (by rintro ⟨⟩) (not_not.mpr (Or.inl rfl))
  | some t =>
    rw [or_iff_right (by rintro ⟨⟩), ProtoVertex.Addable, not_and_or, ← mapProtoVertex_panics_iff]
    cases hmap : mapProtoVertexToAccountantVertex p with
    | error e => simp
    | ok v =>
      have hadd := hs.addLeaf_panics_iff v c.probe c.ledger
      simp only [reduceCtorEq, Except.ok.injEq, forall_eq', not_not, false_or, ← hadd]
      generalize g.book.addLeaf env.ledger v c.probe c.ledger = res
      obtain ⟨b, e | u⟩ := res
      · simp only [crashed_error, decide_eq_true_eq, Except.error.injEq]
        split <;> simp_all
      · simp

theorem processTrx_panics_iff (c : GossipMeets) (p : ProtoTransaction) (g : GossipNode) :
    (g.processTrx env c p).2 = .error (.wire .panicked) ↔
      ¬ Checkable (Transaction.checkIssuer env.ledger.verifier) (some p) := by
  rw [← trxBreaks_iff, TrxBreaks]
  unfold GossipNode.processTrx
  cases hconv : protoTrxToTrx (some p) with
  | error e => cases e <;> simp
  | ok t => cases hcheck : t.checkIssuer env.ledger.verifier <;> simp [hcheck]

end Gossip

/-! ### Handlers of signed requests -/

section Signed

variable {env : ServerEnv}

/-- The signed request can be taken: its digest is long enough, `Verify` returns, and the data is long enough
    unless the signature does not verify. -/
def SignedHash.Whole (v : Verifier) (req : SignedHash) : Prop :=
  ∃ hash, Hash.ofSlice req.hash = .ok hash ∧
    (v.check req.data req.signature hash req.address = .refused ∨
      v.check req.data req.signature hash req.address = .accepted ∧ 32 ≤ req.data.length)

theorem reported_ne_panic (e : CacheError) : Notary.reported e ≠ .wire .panicked := by
  unfold Notary.reported
  split <;> rintro ⟨⟩

theorem reject_panics_iff (env : ServerEnv) (f : CacheFaults) (mem : BigCache) (req : SignedHash) :
    (Notary.reject env f mem (some req)).2 = .error (.wire .panicked) ↔ ¬ req.Whole env.ledger.verifier := by
  unfold Notary.reject SignedHash.Whole
  rcases Hash.ofSlice_cases req.hash with ⟨-, he⟩ | ⟨-, hash, hh⟩
  · simp [he]
  simp only [hh, Except.ok.injEq, exists_eq_left']
  cases hv : env.ledger.verifier.verify req.data req.signature hash req.address with
  | false =>
    have hcheck : env.ledger.verifier.check req.data req.signature hash req.address ≠ .accepted := by
      simpa [Verifier.verify] using hv
    simp only [if_true, hcheck, false_and, or_false]
    cases hd : env.ledger.verifier.check req.data req.signature hash req.address with
    | accepted => exact absurd hd hcheck
    | refused | panicked => simp [Verdict.reported]
  | true =>
    simp only [Verifier.verify_iff.mp hv, Bool.true_eq_false, if_false, reduceCtorEq, false_or, true_and]
    rcases Hash.ofSlice_cases req.data with ⟨hshort, he⟩ | ⟨hlong, trxHash, hd⟩
    · exact iff_of_true (by rw [he]) (not_le.mpr hshort)
    · refine iff_of_false ?_ (not_not.mpr hlong)
      rw [hd]
      simp only
      generalize removeAwaitedTransaction env.trxCodec f mem trxHash req.address = res
      obtain ⟨mem', e | ⟨trx, _ | e⟩⟩ := res
      · exact fun h => reported_ne_panic e (Except.error.inj h)
      · rintro ⟨⟩
      · exact fun h => reported_ne_panic e (Except.error.inj h)

theorem getVertex_panics_iff (env : ServerEnv) (g : GossipNode) (readFails : Bool) (req : SignedHash) :
    g.getVertex env readFails (some req) = .error (.wire .panicked) ↔ ¬ req.Whole env.ledger.verifier := by
  unfold GossipNode.getVertex SignedHash.Whole SignedHash.signed
  rcases Hash.ofSlice_cases req.hash with ⟨-, he⟩ | ⟨-, hash, hh⟩
  · simp [he]
  simp only [hh, Except.ok.injEq, exists_eq_left']
  cases env.ledger.verifier.check req.data req.signature hash req.address with
  | panicked => simp [Verdict.returned]
  | refused => simp [Verdict.returned]
  | accepted =>
    simp only [Verdict.returned, reduceCtorEq, false_or, true_and]
    rcases Hash.ofSlice_cases req.data with ⟨hshort, he⟩ | ⟨hlong, vrxHash, hd⟩
    · exact iff_of_true (by rw [he]) (not_le.mpr hshort)
    · refine iff_of_false ?_ (not_not.mpr hlong)
      rw [hd]
      simp only
      generalize g.book.readVertex env.ledger.codec vrxHash readFails = res
      obtain e | vrx := res
      · rintro ⟨⟩
      · rintro ⟨⟩

end Signed

/-! ### Handlers of transactions and peers -/

theorem propose_panics_iff (env : ServerEnv) (f : CacheFaults) (mem : BigCache) (req : Option ProtoTransaction) :
    (Notary.propose env f mem req).2 = .error (.wire .panicked) ↔
      ¬ Checkable (Transaction.checkIssuer env.ledger.verifier) req := by
  rw [← trxBreaks_iff, TrxBreaks]
  cases req with
  | none => simp [Notary.propose, protoTrxToTrx]
  | some p =>
    rw [Notary.propose]
    cases hconv : protoTrxToTrx (some p) with
    | error e => simp
    | ok t =>
      simp only [reduceCtorEq, false_or, Except.ok.injEq, exists_eq_left']
      split
      · simp [Verdict.reported_eq_panicked_iff]
      next hv =>
        have hcheck : t.checkIssuer env.ledger.verifier = .accepted :=
          Transaction.checkIssuer_eq_accepted_iff.mpr (by simpa using hv)
        refine iff_of_false ?_ (by simp [hcheck])
        split
        · split
          · rintro ⟨⟩
          · split <;> rintro ⟨⟩
        · rintro ⟨⟩

theorem confirm_panics_iff (env : ServerEnv) (f : CacheFaults) (mem : BigCache) (req : Option ProtoTransaction) :
    (Notary.confirm env f mem req).2 = .error (.wire .panicked) ↔
      ¬ Checkable (Transaction.checkIssuerReceiver env.ledger.verifier) req := by
  rw [← trxBreaks_iff, TrxBreaks, Notary.confirm]
  cases hconv : protoTrxToTrx req with
  | error e => simp
  | ok t =>
    simp only [reduceCtorEq, false_or, Except.ok.injEq, exists_eq_left']
    split
    · simp [Verdict.reported_eq_panicked_iff]
    next hv =>
      have hcheck : t.checkIssuerReceiver env.ledger.verifier = .accepted :=
        Transaction.checkIssuerReceiver_eq_accepted_iff.mpr (by simpa using hv)
      refine iff_of_false ?_ (by simp [hcheck])
      split
      · exact fun h => reported_ne_panic _ (Except.error.inj h)
      · exact fun h => reported_ne_panic _ (Except.error.inj h)
      · rintro ⟨⟩

section Notary

variable {env : ServerEnv} {w : Circumstance} {s : Service} (hs : s.book.Sturdy env.ledger)
  (hsome : s.book.dagLoaded = true → ∃ k, k ∈ s.book.dag.graph.nodes)

include hs hsome

theorem createLeaf_returns (trx : Transaction) (forget : List Chore) :
    (s.createLeaf env w trx forget).2 ≠ .error (.wire .panicked) := by
  obtain ⟨hne, hfailed⟩ := hs.createLeaf_returns hsome trx w.first w.second w.now w.ledger
  unfold Service.createLeaf
  generalize s.book.createLeaf env.ledger trx w.first w.second w.now w.ledger = res at hne hfailed
  obtain ⟨b, vrx | e | _⟩ := res
  · simp only
    split <;> simp
  · simp [hfailed e rfl]
  · exact absurd rfl hne

theorem servicePropose_panics_iff (req : Option ProtoTransaction) :
    (s.propose env w req).2 = .error (.wire .panicked) ↔
      ¬ Checkable (Transaction.checkIssuer env.ledger.verifier) req := by
  rw [← propose_panics_iff env w.cache s.cache, Service.propose]
  generalize Notary.propose env w.cache s.cache req = res
  obtain ⟨cache, e | _ | trx⟩ := res
  · simp
  · simp
  · exact iff_of_false (createLeaf_returns (s := { s with cache }) hs hsome _ _) (by simp)

theorem serviceConfirm_panics_iff (req : Option ProtoTransaction) :
    (s.confirm env w req).2 = .error (.wire .panicked) ↔
      ¬ Checkable (Transaction.checkIssuerReceiver env.ledger.verifier) req := by
  rw [← confirm_panics_iff env w.cache s.cache, Service.confirm]
  generalize Notary.confirm env w.cache s.cache req = res
  obtain ⟨cache, e | trx⟩ := res
  · simp
  · exact iff_of_false (createLeaf_returns (s := { s with cache }) hs hsome _ _) (by simp)

theorem serviceReject_panics_iff (req : SignedHash) :
    (s.reject env w (some req)).2 = .error (.wire .panicked) ↔ ¬ req.Whole env.ledger.verifier := by
  rw [← reject_panics_iff env w.cache s.cache, Service.reject]
  generalize Notary.reject env w.cache s.cache (some req) = res
  obtain ⟨cache, e | trx⟩ := res
  · simp
  · exact iff_of_false (createLeaf_returns (s := { s with cache }) hs hsome _ _) (by simp)

end Notary

/-- Connection data over which the verification does not return. -/
def ConnectionData.Breaks (v : Verifier) (cd : ConnectionData) : Prop :=
  v.Breaks (initConnectionData cd.publicAddress cd.url cd.createdAt) cd.signature cd.digest cd.publicAddress

theorem handle_panics_iff (env : PeerEnv) (s : PeerTable) (r : PeerRequest) :
    (s.handle env r).2 = .error (.wire .panicked) ↔ r.data.Breaks env.verifier := by
  have hvalidate : ∀ cd : ConnectionData, cd.Breaks env.verifier ↔ cd.validate env.verifier = .error .panicked := by
    intro cd
    rw [ConnectionData.Breaks, ConnectionData.validate]
    rcases Hash.ofSlice_cases cd.digest with ⟨hshort, he⟩ | ⟨-, digest, hd⟩
    · exact iff_of_true (Or.inl hshort) (by rw [he])
    · rw [Verifier.breaks_iff hd, hd]
      simp only [validateSignature]
      generalize env.verifier.check _ _ _ _ = verdict
      cases verdict <;> simp [Verdict.returned]
  rw [hvalidate]
  cases r with
  | announce cd dials =>
    simp only [PeerTable.handle, PeerTable.announce, PeerRequest.data]
    rcases cd.validate env.verifier with e | _ | _ <;> cases dials <;> simp
  | discover cd dials now order =>
    simp only [PeerTable.handle, PeerTable.discover, PeerRequest.data]
    rcases cd.validate env.verifier with e | _ | _ <;> cases dials <;> simp

/-- CONDITION on a call and the node before it: what it reads is there and long enough, and `Verify` panics over
    no address that it is called with. -/
def WireHost.Readable (s : WireHost) : WireCall → Prop
  | .propose req => Checkable (Transaction.checkIssuer s.env.ledger.verifier) req
  | .confirm req => Checkable (Transaction.checkIssuerReceiver s.env.ledger.verifier) req
  | .reject req => ∀ r, req = some r → r.Whole s.env.ledger.verifier
  | .gossipVrx vg => ∀ vertex gossipers, vg = some ⟨some vertex, gossipers⟩ →
      Spreadable s.env s.meets s.node vertex.hash gossipers
        (vertex.transaction = none ∨ vertex.Addable s.env.ledger s.node.book s.meets.ledger)
  | .gossipTrx tg => ∀ trx gossipers, tg = some ⟨some trx, gossipers⟩ →
      Spreadable s.env s.meets s.node trx.hash gossipers
        (Checkable (Transaction.checkIssuer s.env.ledger.verifier) (some trx))
  | .peer (.announce cd _) => ∃ d, cd = some d ∧ ¬ d.Breaks s.peerEnv.verifier
  | .peer (.discover cd _ _ _) => ∃ d, cd = some d ∧ ¬ d.Breaks s.peerEnv.verifier
  | .getVertex req => ∃ r, req = some r ∧ r.Whole s.env.ledger.verifier
  | .protoTrxToTrx prTrx => Convertible prTrx
  | .mapProtoVertex vg => ∃ p, vg = some p ∧ p.Whole
  | .verifyGossipers hash gossipers => GossipersWhole s.env.ledger.verifier hash gossipers

/-- CONDITION on the node: its graph has a vertex, once it is loaded, and none over which `Verify` panics. -/
structure WireHost.Stable (s : WireHost) : Prop where
  sturdy : s.node.book.Sturdy s.env.ledger
  rooted : s.node.book.dagLoaded = true → ∃ k, k ∈ s.node.book.dag.graph.nodes

namespace Transparent

/-- The sample node as it takes calls. -/
def wireHost : WireHost := ⟨serverEnv, peerEnv, calmly 5, calmMeets, false, connected, PeerTable.fresh⟩

theorem wireHost_stable : wireHost.Stable where
  sturdy k v _ := check_ne_panicked v
  rooted _ := ⟨(root 10).hash, by decide +kernel⟩

/-- The same node with the verifier of the wallet. -/
def helperHost : WireHost :=
  { wireHost with env := { serverEnv with ledger := { serverEnv.ledger with
      verifier := Helper.verifier Helper.bareCrypto } } }

/-- An address with a good checksum and no key, and a payment that it issues: the hash is right. -/
def hollow : Address := 0 :: Wallet.checksum Helper.bareCrypto [0]

def hollowPayment : Transaction :=
  let unsigned := trx hollow (wallet 8) ⟨4, 0⟩ [] 3
  { unsigned with hash := Helper.bareCrypto.sum256 unsigned.getMessage }

end Transparent

end Computantis
