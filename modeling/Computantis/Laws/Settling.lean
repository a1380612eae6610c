import Computantis.Laws.Reading
import Computantis.Laws.Retention

/-! @law settling | name:Money across a truncation | family:refinement | about:Model/Truncate

    A truncation turns spice that is summed up on every read into funds that are read from the store.
    The funds map is right about an address as long as the address sent nothing to itself in the cut and
    had what it sent: of a transfer to itself the map keeps only the income, and a drain that fails is
    dropped, so that a debt is forgiven. And it settles the whole cut, also the part that is not in the
    past of the leaf from which a balance is read (`gain`). -/

namespace Computantis

open Schemes

theorem Melange.same_value_iff {x y : ℤ} (hx : x < Melange.cap) (hy : y < Melange.cap) :
    (∀ m : Melange, m.Norm ∧ (m.value : ℤ) = x ↔ m.Norm ∧ (m.value : ℤ) = y) ↔ x = y ∨ x < 0 ∧ y < 0 := by
  -- a total that is no debt is the value of some amount
  have hamount : ∀ {z : ℤ}, 0 ≤ z → z < Melange.cap → ∃ m : Melange, m.Norm ∧ (m.value : ℤ) = z := by
    intro z hz hcap
    obtain ⟨m, hm, hv⟩ := Melange.exists_value (n := z.toNat) (by omega)
    exact ⟨m, hm, by omega⟩
  constructor
  · intro h
    by_cases hxz : 0 ≤ x
    · obtain ⟨m, hm, hv⟩ := hamount hxz hx
      exact Or.inl (hv.symm.trans ((h m).mp ⟨hm, hv⟩).2)
    · by_cases hyz : 0 ≤ y
      · obtain ⟨m, hm, hv⟩ := hamount hyz hy
        exact Or.inl (((h m).mpr ⟨hm, hv⟩).2.symm.trans hv)
      · exact Or.inr ⟨by omega, by omega⟩
  · rintro (rfl | ⟨hxz, hyz⟩) m
    · exact Iff.rfl
    · refine iff_of_false (fun hm => ?_) fun hm => ?_ <;> have := hm.2 <;> omega

/-! ### Balances are exact -/

section Balance

variable {codec : Codec} {b : Book} {a : Address}

theorem walkBalance_calm {d : Dag} (ids : List Hash) : ∀ (i : ℕ) (visited : List Hash) (p : Pots),
    (∀ id ∈ ids, id ∈ d.graph.nodes) →
      Book.walkBalance d a none ids i visited p = foldFunds a (d.vertices (firsts visited ids)) p := by
  induction ids with
  | nil => exact fun _ _ _ _ => rfl
  | cons id ids ih =>
    intro i visited p h
    have hids : ∀ x ∈ ids, x ∈ d.graph.nodes := fun x hx => h x (List.mem_cons_of_mem _ hx)
    rw [Book.walkBalance, firsts, if_neg (by simp)]
    by_cases hvis : id ∈ visited
    · rw [if_pos hvis, if_pos hvis]
      exact ih _ _ _ hids
    · obtain ⟨v, hv⟩ : ∃ v, d.getVertex id = some v := Digraph.mem_nodes.mp (h id (List.mem_cons_self ..))
      have hvs : d.vertices (id :: firsts (id :: visited) ids) = v :: d.vertices (firsts (id :: visited) ids) := by
        simp [Dag.vertices, hv]
      rw [if_neg hvis, if_neg hvis, hvs, foldFunds_cons]
      simp only [hv]
      cases pourFunds a v p with
      | error e => rfl
      | ok q => exact ih _ _ _ hids

/-- SPEC (settling): the balance is what is stored and came in, less what went out, and there is none when
    more went out. -/
theorem settleBalance_cases {s : Melange} {p : Pots} (hs : s.Norm) (hp : p.Norm)
    (hfit : s.value + p.spiceIn.value < Melange.cap) :
    (s.value + p.spiceIn.value < p.spiceOut.value ∧ Book.settleBalance s p =
      .error [.errBalanceCalculationUnexpectedFailure, .spice .noSufficientFounds]) ∨
    ∃ m : Melange, Book.settleBalance s p = .ok m ∧ m.Norm ∧
      m.value + p.spiceOut.value = s.value + p.spiceIn.value := by
  obtain ⟨m', hsupply, hn, hv⟩ := Melange.supply_exact hs hp.spiceIn hfit
  rw [Book.settleBalance, hsupply]
  rcases Nat.lt_or_ge m'.value p.spiceOut.value with hlt | hge
  · obtain ⟨hrefused, -⟩ := Melange.drain_refused hn hp.spiceOut hlt
    have herr : (m'.drain p.spiceOut ⟨0, 0⟩).err = some .noSufficientFounds := hrefused
    exact Or.inl ⟨by omega, by simp only [herr]⟩
  · obtain ⟨herr, hsn, hsv⟩ : (m'.drain p.spiceOut ⟨0, 0⟩).err = none ∧ (m'.drain p.spiceOut ⟨0, 0⟩).src.Norm ∧
        (m'.drain p.spiceOut ⟨0, 0⟩).src.value = m'.value - p.spiceOut.value :=
      Melange.drain_exact hn hp.spiceOut hge
    exact Or.inr ⟨_, by simp only [herr], hsn, by omega⟩

theorem settleBalance_ok_iff {s m : Melange} {p : Pots} (hs : s.Norm) (hp : p.Norm)
    (hfit : s.value + p.spiceIn.value < Melange.cap) :
    Book.settleBalance s p = .ok m ↔ m.Norm ∧ m.value + p.spiceOut.value = s.value + p.spiceIn.value := by
  rcases settleBalance_cases hs hp hfit with ⟨hlt, herr⟩ | ⟨m', hok, hn, hv⟩
  · rw [herr]
    constructor
    · intro h
      cases h
    · intro h
      omega
  · rw [hok, Except.ok.injEq]
    constructor
    · rintro rfl
      exact ⟨hn, hv⟩
    · rintro ⟨hm, hval⟩
      exact Melange.eq_of_value hn hm (by omega)

theorem balanceFrom_settles {leaf : Hash} (h : PastFits codec b leaf a) (hleaf : leaf ∈ b.dag.graph.nodes)
    (order : List Hash) :
    ∃ q : Pots, q.Norm ∧ q.spiceOut.value = issued a (b.dag.past leaf) ∧
      q.spiceIn.value = received a (b.dag.past leaf) ∧
      b.balanceFrom codec leaf ⟨order, none⟩ false a = Book.settleBalance (b.stored codec a) q := by
  obtain ⟨v, hget⟩ : ∃ v, b.dag.getVertex leaf = some v := Digraph.mem_nodes.mp hleaf
  have hkey : v.hash = leaf := b.dag.keyed hget
  subst hkey
  have hzero : Pots.zero.spiceOut.value = 0 ∧ Pots.zero.spiceIn.value = 0 := by simp [Pots.zero]
  have hreceived := h.received
  have hissued := h.issued
  obtain ⟨q, hq, hqn, hqo, hqi⟩ := foldFunds_past (a := a) Pots.norm_zero h.norm hget
    (enumerates_walk b.dag v.hash order) (by omega) (by omega)
  refine ⟨q, hqn, by omega, by omega, ?_⟩
  have hwalk : ∀ p, Book.walkBalance b.dag a none (arrange order (b.dag.graph.ancestors v.hash)) 0 [] p =
      foldFunds a (b.dag.vertices (firsts [] (arrange order (b.dag.graph.ancestors v.hash)))) p := by
    intro p
    refine walkBalance_calm _ 0 [] p fun id hid => ?_
    exact (Digraph.mem_ancestors.mp (mem_arrange.mp hid)).left
  rw [Book.balanceFrom, hget]
  simp only [hwalk]
  cases hpour : pourFunds a v Pots.zero with
  | error e' =>
    rw [hpour] at hq
    cases hq
  | ok start =>
    rw [hpour] at hq
    have hfold : foldFunds a (b.dag.vertices (firsts [] (arrange order (b.dag.graph.ancestors v.hash)))) start =
        .ok q := hq
    simp only [hfold]
    rcases readAddressFunds_calm codec b a with hread | hread <;> rw [hread]

end Balance

/-! ### The funds map is exact -/

/-- Spice that `a` issues to somebody else in `v`. -/
def sentBy (a : Address) (v : Vertex) : ℕ :=
  if v.transaction.issuerAddress = a ∧ v.transaction.receiverAddress ≠ a then v.transaction.spice.value else 0

def sent (a : Address) (vs : List Vertex) : ℕ := (vs.map (sentBy a)).sum

@[simp] theorem sent_nil (a : Address) : sent a [] = 0 := rfl

@[simp] theorem sent_cons (a : Address) (v : Vertex) (vs : List Vertex) :
    sent a (v :: vs) = sentBy a v + sent a vs := by simp [sent]

theorem sentBy_le (a : Address) (v : Vertex) : sentBy a v ≤ issuedBy a v := by
  rw [sentBy, issuedBy]
  split
  next h => rw [if_pos h.1]
  next => exact Nat.zero_le _

theorem sent_le_issued (a : Address) (vs : List Vertex) : sent a vs ≤ issued a vs :=
  List.sum_le_sum fun v _ => sentBy_le a v

theorem sent_perm (a : Address) {vs ws : List Vertex} (h : vs.Perm ws) : sent a vs = sent a ws :=
  (h.map _).sum_eq

/-- What the transfers to `a` move, one after the other. -/
def receipts (a : Address) (vs : List Vertex) : List Melange :=
  (vs.filter fun v => v.transaction.isSpiceTransfer = true ∧ v.transaction.receiverAddress = a).map
    fun v => v.transaction.spice

/-- What the transfers of `a` to others move. -/
def remittances (a : Address) (vs : List Vertex) : List Melange :=
  (vs.filter fun v => v.transaction.isSpiceTransfer = true ∧ v.transaction.issuerAddress = a ∧
    v.transaction.receiverAddress ≠ a).map fun v => v.transaction.spice

section Chains

variable {a : Address}

theorem receipts_cons (v : Vertex) (vs : List Vertex) : receipts a (v :: vs) = receipts a [v] ++ receipts a vs := by
  rw [← List.singleton_append, receipts, List.filter_append, List.map_append]
  rfl

theorem remittances_cons (v : Vertex) (vs : List Vertex) :
    remittances a (v :: vs) = remittances a [v] ++ remittances a vs := by
  rw [← List.singleton_append, remittances, List.filter_append, List.map_append]
  rfl

theorem total_receipts (vs : List Vertex) : Melange.total (receipts a vs) = received a vs := by
  induction vs with
  | nil => rfl
  | cons v vs ih =>
    rw [receipts_cons, Melange.total_append, ih, received_cons, receivedBy, receipts]
    cases hs : v.transaction.isSpiceTransfer with
    | false => simp [Melange.total, hs, Transaction.isSpiceTransfer_eq_false.mp hs]
    | true => by_cases hr : v.transaction.receiverAddress = a <;> simp [Melange.total, hs, hr]

theorem total_remittances (vs : List Vertex) : Melange.total (remittances a vs) = sent a vs := by
  induction vs with
  | nil => rfl
  | cons v vs ih =>
    rw [remittances_cons, Melange.total_append, ih, sent_cons, sentBy, remittances]
    cases hs : v.transaction.isSpiceTransfer with
    | false => simp [Melange.total, hs, Transaction.isSpiceTransfer_eq_false.mp hs]
    | true =>
      by_cases hi : v.transaction.issuerAddress = a ∧ v.transaction.receiverAddress ≠ a <;>
        simp [Melange.total, hs, hi]

theorem AllNorm.receipts {vs : List Vertex} (h : AllNorm vs) (a : Address) : ∀ r ∈ receipts a vs, r.Norm := by
  intro r hr
  obtain ⟨v, hv, rfl⟩ := List.mem_map.mp hr
  exact h v (List.mem_filter.mp hv).1

theorem AllNorm.remittances {vs : List Vertex} (h : AllNorm vs) (a : Address) :
    ∀ r ∈ remittances a vs, r.Norm := by
  intro r hr
  obtain ⟨v, hv, rfl⟩ := List.mem_map.mp hr
  exact h v (List.mem_filter.mp hv).1

end Chains

namespace FundsMemMap

variable {f : FundsMemMap} {a : Address}

theorem get_insert (f : FundsMemMap) (k : Address) (p : PrecalculatedFounds) (a : Address) :
    get (f.insert k p) a = if a = k then p else get f a := by
  unfold get
  split
  next h => rw [h, AList.lookup_insert, Option.getD_some]
  next h => rw [AList.lookup_insert_ne h]

/-- The record of `a` holds `income` and `outgo`, both normalised. -/
structure Holds (f : FundsMemMap) (a : Address) (income outgo : ℕ) : Prop where
  normIn : (get f a).spiceIn.Norm
  normOut : (get f a).spiceOut.Norm
  income : (get f a).spiceIn.value = income
  outgo : (get f a).spiceOut.value = outgo

/-- The record of an address after a vertex. Of a transfer to itself it keeps the income only, since it is read
    twice before it is written back twice. -/
theorem get_nextVertex (v : Vertex) (f : FundsMemMap) (a : Address) : get (nextVertex v f) a =
    ⟨(get f a).spiceIn.supplied (receipts a [v]), (get f a).spiceOut.supplied (remittances a [v])⟩ := by
  unfold nextVertex receipts remittances
  cases hs : v.transaction.isSpiceTransfer with
  | false => simp [hs, Melange.supplied]
  | true =>
    simp only [if_true, updateFounds, get_insert]
    by_cases hr : a = v.transaction.receiverAddress
    · simp [hs, ← hr, Melange.supplied]
    · by_cases hi : a = v.transaction.issuerAddress
      · simp [hs, ← hi, hr, Ne.symm hr, Melange.supplied]
      · simp [hs, hr, hi, Ne.symm hr, Ne.symm hi, Melange.supplied]

theorem get_fundsOver (a : Address) (vs : List Vertex) : ∀ f : FundsMemMap, get (fundsOver f vs) a =
    ⟨(get f a).spiceIn.supplied (receipts a vs), (get f a).spiceOut.supplied (remittances a vs)⟩ := by
  induction vs with
  | nil => exact fun _ => rfl
  | cons v vs ih =>
    intro f
    rw [receipts_cons, remittances_cons, Melange.supplied_append, Melange.supplied_append]
    refine (ih (nextVertex v f)).trans ?_
    rw [get_nextVertex]

theorem Holds.fundsOver (vs : List Vertex) {x y : ℕ} (h : Holds f a x y) (hnorm : AllNorm vs)
    (hin : x + received a vs < Melange.cap) (hout : y + sent a vs < Melange.cap) :
    Holds (fundsOver f vs) a (x + received a vs) (y + sent a vs) := by
  rw [← total_receipts] at hin ⊢
  rw [← total_remittances] at hout ⊢
  obtain ⟨hni, hvi⟩ := Melange.supplied_exact (receipts a vs) h.normIn (hnorm.receipts a) (by rwa [h.income])
  obtain ⟨hno, hvo⟩ := Melange.supplied_exact (remittances a vs) h.normOut (hnorm.remittances a) (by rwa [h.outgo])
  rw [h.income] at hvi
  rw [h.outgo] at hvo
  refine ⟨?_, ?_, ?_, ?_⟩ <;> rw [get_fundsOver]
  · exact hni
  · exact hno
  · exact hvi
  · exact hvo

theorem Holds.settled {x y : ℕ} (h : Holds f a x y) : (settled (get f a)).Norm ∧
    (settled (get f a)).value = if y ≤ x then x - y else x := by
  rw [FundsMemMap.settled]
  split
  next hle =>
    obtain ⟨-, hn, hv⟩ := Melange.drain_exact h.normIn h.normOut (by rw [h.income, h.outgo]; exact hle)
    exact ⟨hn, by rw [← h.income, ← h.outgo]; exact hv⟩
  next hlt =>
    obtain ⟨-, hsrc⟩ := Melange.drain_refused h.normIn h.normOut (by rw [h.income, h.outgo]; omega)
    have hsame : ((get f a).spiceIn.drain (get f a).spiceOut ⟨0, 0⟩).src = (get f a).spiceIn := hsrc
    rw [hsame]
    exact ⟨h.normIn, h.income⟩

theorem get_foldl_set (codec : Codec) (ha : a.length ≠ 32) (es : List (Sigma fun _ : Bytes => Bytes)) :
    es.NodupKeys → ∀ f : FundsMemMap,
      get (es.foldl (fun f e =>
        if e.1.length = 32 then f
        else if (codec.decodeSpice e.2).2 then set f e.1 (codec.decodeSpice e.2).1 else f) f) a =
      match es.dlookup a with
      | none => get f a
      | some buf => if (codec.decodeSpice buf).2 then ⟨(codec.decodeSpice buf).1, ⟨0, 0⟩⟩ else get f a := by
  induction es with
  | nil => exact fun _ f => rfl
  | cons e es ih =>
    intro hnodup f
    obtain ⟨hnew, hrest⟩ := List.nodupKeys_cons.mp hnodup
    rw [List.foldl_cons, ih hrest]
    by_cases hk : a = e.1
    · subst hk
      rw [List.dlookup_cons_eq, List.dlookup_eq_none.mpr hnew]
      simp only [if_neg ha]
      split
      · rw [set, get_insert, if_pos rfl]
      · rfl
    · have hget : get (if e.1.length = 32 then f
          else if (codec.decodeSpice e.2).2 then set f e.1 (codec.decodeSpice e.2).1 else f) a = get f a := by
        split
        · rfl
        · split
          · rw [set, get_insert, if_neg hk]
          · rfl
      rw [List.dlookup_cons_ne _ _ hk, hget]

theorem holds_forEachfund {codec : Codec} {b : Book} (h : FundsFit codec b a) (ha : a.length ≠ 32) :
    Holds (forEachfundFromStorage codec b.verticesDB) a (b.stored codec a).value 0 := by
  have hget := get_foldl_set codec ha b.verticesDB.entries b.verticesDB.nodupKeys ∅
  have hempty : get ∅ a = .empty := by simp [get]
  have hrecord : get (forEachfundFromStorage codec b.verticesDB) a = ⟨b.stored codec a, ⟨0, 0⟩⟩ := by
    refine hget.trans ?_
    rw [Book.stored, Book.readAddressFundsFromStorage, if_neg (by simp), hempty]
    cases hbuf : b.verticesDB.lookup a with
    | none =>
      have hnone : b.verticesDB.entries.dlookup a = none := hbuf
      rw [hnone]
      rfl
    | some buf =>
      have hsome : b.verticesDB.entries.dlookup a = some buf := hbuf
      simp only [hsome, (h.stored buf hbuf).1, if_true]
  have hzero : (⟨0, 0⟩ : Melange).value = 0 := Melange.value_zero
  refine ⟨?_, ?_, ?_, ?_⟩ <;> rw [hrecord]
  · exact h.stored_norm
  · exact Melange.norm_zero
  · exact hzero

end FundsMemMap

/-! ### What a cut leaves -/

/-- The cut: the ancestors of `top`. -/
def Dag.cutAt (d : Dag) (top : Hash) : List Vertex := d.above top []

/-- The part of the cut that is not in the past of the leaf. -/
def Dag.aside (d : Dag) (top leaf : Hash) : List Vertex := (d.cutAt top).filter (· ∉ d.past leaf)

section Cut

variable {codec : Codec} {t : TruncateSchedule} {b b' : Book} {top : Hash} {a : Address}

theorem above_perm (d : Dag) (top : Hash) (order : List Hash) : (d.above top order).Perm (d.cutAt top) := by
  refine (List.perm_ext_iff_of_nodup ((Dag.above_nodup _ _).of_map _) ((Dag.above_nodup _ _).of_map _)).mpr ?_
  intro v
  rw [Dag.mem_above, Dag.mem_above]

theorem Cut.anc_iff (h : Cut codec t b b' top) {k x : Hash} (hk : ¬ b.dag.graph.Anc k top) :
    b'.dag.graph.Anc x k ↔ b.dag.graph.Anc x k ∧ ¬ b.dag.graph.Anc x top := by
  constructor
  · intro hx
    induction hx using Relation.TransGen.head_induction_on with
    | single hxk =>
      obtain ⟨ha, hx, -⟩ := (h.arc _ _).mp hxk
      exact ⟨.single ha, hx⟩
    | head hxy _ ih =>
      obtain ⟨ha, hx, -⟩ := (h.arc _ _).mp hxy
      exact ⟨.head ha ih.1, hx⟩
  · rintro ⟨hx, hcut⟩
    induction hx using Relation.TransGen.head_induction_on with
    | single hxk => exact .single ((h.arc _ _).mpr ⟨hxk, hcut, hk⟩)
    | head hxy _ ih =>
      have hy : ¬ b.dag.graph.Anc _ top := fun hy => hcut (.head hxy hy)
      exact .head ((h.arc _ _).mpr ⟨hxy, hcut, hy⟩) (ih hy)

theorem Cut.getVertex_iff (h : Cut codec t b b' top) {k : Hash} {v : Vertex} :
    b'.dag.getVertex k = some v ↔ b.dag.getVertex k = some v ∧ ¬ b.dag.graph.Anc k top := by
  rw [h.get]
  split
  next hk => exact iff_of_false (fun hv => nomatch hv) fun hv => hv.2 hk
  next hk => exact ⟨fun hv => ⟨hv, hk⟩, fun hv => hv.1⟩

theorem Cut.mem_past (h : Cut codec t b b' top) {leaf v : Vertex} (hleaf : ¬ b.dag.graph.Anc leaf.hash top) :
    v ∈ b'.dag.past leaf.hash ↔ v ∈ b.dag.past leaf.hash ∧ ¬ b.dag.graph.Anc v.hash top := by
  rw [Dag.mem_past, Dag.mem_past, h.anc_iff hleaf, h.getVertex_iff]
  constructor
  · rintro ⟨hanc, hv, hcut⟩
    exact ⟨⟨hanc.imp id And.left, hv⟩, hcut⟩
  · rintro ⟨⟨hanc, hv⟩, hcut⟩
    exact ⟨hanc.imp id fun hx => ⟨hx, hcut⟩, hv, hcut⟩

theorem Cut.all_perm (h : Cut codec t b b' top) : b.dag.all.Perm (b'.dag.all ++ b.dag.cutAt top) := by
  have hcut : (b.dag.cutAt top).Nodup := (Dag.above_nodup _ _).of_map _
  have hall : ∀ d : Dag, d.all.Nodup := fun d => Dag.vertices_nodup d.graph.nodes.keys_nodup
  refine (List.perm_ext_iff_of_nodup (hall _) ((hall _).append hcut ?_)).mpr fun v => ?_
  · intro v hv hc
    exact (h.getVertex_iff.mp (Dag.mem_all.mp hv)).2 (Dag.mem_above.mp hc).2
  · rw [List.mem_append, Dag.mem_all, Dag.mem_all, Dag.cutAt, Dag.mem_above, h.getVertex_iff,
      ← and_or_left, and_iff_left (em _).symm]

theorem Cut.sum_all (h : Cut codec t b b' top) (w : Vertex → ℕ) :
    (b.dag.all.map w).sum = (b'.dag.all.map w).sum + ((b.dag.cutAt top).map w).sum := by
  rw [(h.all_perm.map w).sum_eq, List.map_append, List.sum_append]

theorem Cut.past_perm (h : Cut codec t b b' top) {leaf : Vertex} (hleaf : ¬ b.dag.graph.Anc leaf.hash top) :
    (b.dag.past leaf.hash).Perm
      (b'.dag.past leaf.hash ++ (b.dag.cutAt top).filter (· ∈ b.dag.past leaf.hash)) := by
  have hcut : (b.dag.cutAt top).Nodup := (Dag.above_nodup _ _).of_map _
  have hpast : ∀ d : Dag, (d.past leaf.hash).Nodup := fun d => Dag.vertices_nodup (d.past_nodup _)
  refine (List.perm_ext_iff_of_nodup (hpast _) ((hpast _).append (hcut.filter _) ?_)).mpr fun v => ?_
  · intro v hv hc
    exact ((h.mem_past hleaf).mp hv).2 (Dag.mem_above.mp (List.mem_of_mem_filter hc)).2
  · rw [List.mem_append, h.mem_past hleaf, List.mem_filter, Dag.cutAt, Dag.mem_above, decide_eq_true_eq]
    constructor
    · intro hv
      by_cases hc : b.dag.graph.Anc v.hash top
      · exact Or.inr ⟨⟨(Dag.mem_past.mp hv).2, hc⟩, hv⟩
      · exact Or.inl ⟨hv, hc⟩
    · rintro (⟨hv, -⟩ | ⟨-, hv⟩) <;> exact hv

theorem Cut.sum_past (h : Cut codec t b b' top) {leaf : Vertex} (hleaf : ¬ b.dag.graph.Anc leaf.hash top)
    (w : Vertex → ℕ) :
    ((b.dag.past leaf.hash).map w).sum + ((b.dag.aside top leaf.hash).map w).sum =
      ((b'.dag.past leaf.hash).map w).sum + ((b.dag.cutAt top).map w).sum := by
  have hpast := ((h.past_perm hleaf).map w).sum_eq
  have hcut := ((List.filter_append_perm (· ∈ b.dag.past leaf.hash) (b.dag.cutAt top)).map w).sum_eq
  rw [List.map_append, List.sum_append] at hpast hcut
  have haside : b.dag.aside top leaf.hash =
      (b.dag.cutAt top).filter fun v => !decide (v ∈ b.dag.past leaf.hash) := by
    simp [Dag.aside]
  rw [haside]
  omega

/-- The record of an address after the second walk: its stored funds and what it received in the cut,
    and what it sent there. -/
theorem holds_cutFunds (hfit : FundsFit codec b a) (ha : a.length ≠ 32) :
    FundsMemMap.Holds (cutFunds codec b t top) a
      ((b.stored codec a).value + received a (b.dag.cutAt top)) (sent a (b.dag.cutAt top)) := by
  have hperm := above_perm b.dag top t.second.order
  have hle : ∀ ids : List Hash, ids.Nodup → issued a (b.dag.vertices ids) ≤ issued a b.dag.all ∧
      received a (b.dag.vertices ids) ≤ received a b.dag.all := fun ids hids =>
    ⟨b.dag.issued_le_all a hids, b.dag.received_le_all a hids⟩
  obtain ⟨hi, hr⟩ := hle _ (firsts_nodup (arrange [] (b.dag.graph.ancestors top)) [])
  have hsent : sent a (b.dag.cutAt top) ≤ issued a (b.dag.cutAt top) := sent_le_issued a _
  have hissued := hfit.issued
  have hreceived := hfit.received
  have hcap : issued a (b.dag.cutAt top) ≤ issued a b.dag.all ∧
      received a (b.dag.cutAt top) ≤ received a b.dag.all := ⟨hi, hr⟩
  have h := (FundsMemMap.holds_forEachfund hfit ha).fundsOver (b.dag.above top t.second.order)
    (fun v hv => hfit.norm v (Dag.mem_all.mpr (Dag.mem_above.mp hv).1))
    (by rw [received_perm a hperm]; omega) (by rw [sent_perm a hperm]; omega)
  rw [received_perm a hperm, sent_perm a hperm, Nat.zero_add] at h
  exact h

/-- EXACT (stored funds): a cut adds what the address received in it and takes off what it sent,
    unless that is more. -/
theorem Cut.stored_value (h : Cut codec t b b' top) (hc : codec.Faithful) (hfit : FundsFit codec b a)
    (ha : a.length ≠ 32) :
    (∀ buf, b'.verticesDB.lookup a = some buf →
      (codec.decodeSpice buf).2 = true ∧ (codec.decodeSpice buf).1.Norm) ∧
    (b'.stored codec a).value =
      if sent a (b.dag.cutAt top) ≤ (b.stored codec a).value + received a (b.dag.cutAt top) then
        (b.stored codec a).value + received a (b.dag.cutAt top) - sent a (b.dag.cutAt top)
      else (b.stored codec a).value + received a (b.dag.cutAt top) := by
  have hholds : FundsMemMap.Holds (cutFunds codec b t top) a _ _ := holds_cutFunds hfit ha
  by_cases hmem : a ∈ cutFunds codec b t top
  · obtain ⟨hn, hv⟩ := hholds.settled
    have hlook := h.funds a hmem
    refine ⟨fun buf hbuf => ?_, ?_⟩
    · rw [hlook] at hbuf
      cases hbuf
      rw [hc.spice]
      exact ⟨rfl, hn⟩
    · rw [← hv, Book.stored, Book.readAddressFundsFromStorage, if_neg (by simp), hlook]
      simp only [hc.spice]
  · have hsame : b'.verticesDB.lookup a = b.verticesDB.lookup a :=
      h.other a hmem fun v _ _ heq => ha (heq ▸ v.hash.len)
    have hempty : FundsMemMap.get (cutFunds codec b t top) a = .empty := by
      rw [FundsMemMap.get, AList.lookup_eq_none.mpr hmem]
      rfl
    have hstored : b'.stored codec a = b.stored codec a := by
      rw [Book.stored, Book.stored, Book.readAddressFundsFromStorage, Book.readAddressFundsFromStorage, hsame]
    have hincome := hholds.income
    have houtgo := hholds.outgo
    have hzero : (⟨0, 0⟩ : Melange).value = 0 := Melange.value_zero
    rw [hempty, PrecalculatedFounds.empty, hzero] at hincome houtgo
    refine ⟨fun buf hbuf => hfit.stored buf (hsame ▸ hbuf), ?_⟩
    rw [hstored, if_pos (by omega)]
    omega

theorem Cut.fundsFit (h : Cut codec t b b' top) (hc : codec.Faithful) (hfit : FundsFit codec b a)
    (ha : a.length ≠ 32) : FundsFit codec b' a := by
  obtain ⟨hdecodes, hval⟩ := h.stored_value hc hfit ha
  have hi : issued a b.dag.all = issued a b'.dag.all + issued a (b.dag.cutAt top) := h.sum_all (issuedBy a)
  have hr : received a b.dag.all = received a b'.dag.all + received a (b.dag.cutAt top) :=
    h.sum_all (receivedBy a)
  have hissued := hfit.issued
  have hreceived := hfit.received
  refine ⟨fun v hv => hfit.norm v (h.all_perm.mem_iff.mpr (List.mem_append_left _ hv)), hdecodes, by omega, ?_⟩
  rw [hval]
  split <;> omega

end Cut

/-! ### What a truncation gives away -/

/-- What an address has before the past of the leaf is settled: stored and received, less issued. -/
def worth (codec : Codec) (b : Book) (leaf : Hash) (a : Address) : ℤ :=
  (b.stored codec a).value + received a (b.dag.past leaf) - issued a (b.dag.past leaf)

/-- What a truncation at `top` adds to the worth of an address at the leaf: what the cut outside the
    past of the leaf moved, what the address sent to itself in the cut, and, when it did not have what it
    sent, all of that. -/
def gain (codec : Codec) (b : Book) (top leaf : Hash) (a : Address) : ℤ :=
  received a (b.dag.aside top leaf) - issued a (b.dag.aside top leaf) +
    (issued a (b.dag.cutAt top) - sent a (b.dag.cutAt top)) +
    if sent a (b.dag.cutAt top) ≤ (b.stored codec a).value + received a (b.dag.cutAt top) then 0
    else sent a (b.dag.cutAt top)

/-- CONDITION on the cut: the address gains nothing, or it is in debt before and still would be. -/
def Unmoved (codec : Codec) (b : Book) (top leaf : Hash) (a : Address) : Prop :=
  gain codec b top leaf a = 0 ∨ (worth codec b leaf a < 0 ∧ worth codec b leaf a + gain codec b top leaf a < 0)

instance (codec : Codec) (b : Book) (top leaf : Hash) (a : Address) : Decidable (Unmoved codec b top leaf a) :=
  inferInstanceAs (Decidable (_ ∨ _))

section Gain

variable {codec : Codec} {t : TruncateSchedule} {b b' : Book} {top : Hash} {a : Address} {leaf : Vertex}

theorem Cut.worth_eq (h : Cut codec t b b' top) (hc : codec.Faithful) (hfit : FundsFit codec b a)
    (ha : a.length ≠ 32) (hleaf : ¬ b.dag.graph.Anc leaf.hash top) :
    worth codec b' leaf.hash a = worth codec b leaf.hash a + gain codec b top leaf.hash a := by
  obtain ⟨-, hval⟩ := h.stored_value hc hfit ha
  have hi : issued a (b.dag.past leaf.hash) + issued a (b.dag.aside top leaf.hash) =
      issued a (b'.dag.past leaf.hash) + issued a (b.dag.cutAt top) := h.sum_past hleaf (issuedBy a)
  have hr : received a (b.dag.past leaf.hash) + received a (b.dag.aside top leaf.hash) =
      received a (b'.dag.past leaf.hash) + received a (b.dag.cutAt top) := h.sum_past hleaf (receivedBy a)
  rw [worth, worth, gain, hval]
  split <;> omega

/-- EXACT (balance): what is stored for the address and what it has received in the past of the leaf,
    less what it has issued there, whatever the order of the walk. -/
theorem balanceFrom_ok_iff_worth {leaf : Hash} (h : PastFits codec b leaf a) (hleaf : leaf ∈ b.dag.graph.nodes)
    (order : List Hash) (m : Melange) :
    b.balanceFrom codec leaf ⟨order, none⟩ false a = .ok m ↔ m.Norm ∧ (m.value : ℤ) = worth codec b leaf a := by
  obtain ⟨q, hqn, hqo, hqi, hbalance⟩ := balanceFrom_settles h hleaf order
  have hreceived := h.received
  rw [hbalance, settleBalance_ok_iff h.stored hqn (by omega), hqo, hqi, worth]
  exact and_congr_right fun _ => by omega

theorem worth_lt_cap {leaf : Hash} (h : PastFits codec b leaf a) : worth codec b leaf a < Melange.cap := by
  have hreceived := h.received
  rw [worth]
  omega

/-- VERDICT (balance): it is the same before and after exactly when the cut leaves the address unmoved. -/
theorem Cut.balanceFrom_iff (h : Cut codec t b b' top) (hc : codec.Faithful) (hfit : FundsFit codec b a)
    (ha : a.length ≠ 32) (hget : b.dag.getVertex leaf.hash = some leaf)
    (hget' : b'.dag.getVertex leaf.hash = some leaf) (order order' : List Hash) :
    (∀ m, b'.balanceFrom codec leaf.hash ⟨order', none⟩ false a = .ok m ↔
      b.balanceFrom codec leaf.hash ⟨order, none⟩ false a = .ok m) ↔ Unmoved codec b top leaf.hash a := by
  have hfit' := h.fundsFit hc hfit ha
  have hworth := h.worth_eq hc hfit ha (h.getVertex_iff.mp hget').2
  simp only [balanceFrom_ok_iff_worth (hfit.past _) (Dag.mem_nodes hget),
    balanceFrom_ok_iff_worth (hfit'.past _) (Dag.mem_nodes hget')]
  rw [Melange.same_value_iff (worth_lt_cap (hfit'.past _)) (worth_lt_cap (hfit.past _)), hworth, Unmoved]
  constructor
  · rintro (heq | ⟨hafter, hbefore⟩)
    · exact Or.inl (by omega)
    · exact Or.inr ⟨hbefore, hafter⟩
  · rintro (hgain | ⟨hbefore, hafter⟩)
    · exact Or.inl (by omega)
    · exact Or.inr ⟨hafter, hbefore⟩

end Gain

/-! ### Validation across a truncation -/

section Validation

variable {env : Env} {t : TruncateSchedule} {b b' : Book} {top : Hash} {leaf : Vertex}

/-- What a leaf of sufficient weight whose signatures verify is judged by: it is a root, or its parents
    are there, or its issuer is not in debt and the parents on the walk verify. -/
def Judged (env : Env) (b : Book) (leaf : Vertex) : Prop :=
  b.dag.graph.isRoot leaf.hash = true ∨
    (¬ leaf.Spends b ∧ leaf.leftParentHash ∈ b.dag.graph.nodes ∧ leaf.rightParentHash ∈ b.dag.graph.nodes) ∨
    (leaf.Spends b ∧ 0 ≤ worth env.codec b leaf.hash leaf.transaction.issuerAddress ∧
      ∀ u, b.dag.getVertex u.hash = some u → b.dag.graph.Anc u.hash leaf.hash → u.hash ∈ leaf.parentHashes →
        u.verify env.verifier = true)

/-- VERDICT (funds): undisturbed, the funds check compares the totals and verifies the parents it meets. -/
theorem validateFunds_calm_iff (hfit : PastFits env.codec b leaf.hash leaf.transaction.issuerAddress)
    (hget : b.dag.getVertex leaf.hash = some leaf) (order : List Hash) :
    b.validateFunds env (.calm order) leaf = .ok () ↔
      0 ≤ worth env.codec b leaf.hash leaf.transaction.issuerAddress ∧
        ∀ u, b.dag.getVertex u.hash = some u → b.dag.graph.Anc u.hash leaf.hash → u.hash ∈ leaf.parentHashes →
          u.verify env.verifier = true := by
  have hpass : ∀ ids, Enumerates b.dag leaf.hash ids →
      (FundsPassIn env b leaf ids ↔ 0 ≤ worth env.codec b leaf.hash leaf.transaction.issuerAddress) := by
    intro ids hids
    rw [fundsPassIn_iff_stored hfit hget hids, worth]
    omega
  have henum := enumerates_walk b.dag leaf.hash order
  constructor
  · intro h
    have hf := fundsPass_of_validateFunds h
    have hclear := (validateFunds_iff hf).mp h
    obtain ⟨ids, hids, hin⟩ := hf
    exact ⟨(hpass ids hids).mp hin, hclear.parents⟩
  · rintro ⟨hworth, hparents⟩
    have hin : FundsPassIn env b leaf _ := (hpass _ henum).mpr hworth
    exact (validateFunds_iff ⟨_, henum, hin⟩).mpr ⟨rfl, fun _ hj => (nomatch hj), hparents, fun _ _ _ => hin⟩

/-- VERDICT (validation). -/
theorem validateLeaf_calm_iff (hfit : PastFits env.codec b leaf.hash leaf.transaction.issuerAddress)
    (hget : b.dag.getVertex leaf.hash = some leaf) (order : List Hash) :
    b.validateLeaf env (.calm order) leaf = .ok () ↔
      b.isValidWeight leaf.weight = true ∧ leaf.verify env.verifier = true ∧ Judged env b leaf := by
  have hmem : leaf.hash ∈ b.dag.graph.nodes := Dag.mem_nodes hget
  unfold Book.validateLeaf Judged
  cases hw : b.isValidWeight leaf.weight with
  | false => simp
  | true =>
    cases hv : leaf.verify env.verifier with
    | false => simp
    | true =>
      rw [if_neg (by simp), if_neg (by simp), if_neg (not_not.mpr hmem)]
      by_cases hroot : b.dag.graph.isRoot leaf.hash = true
      · simp [hroot]
      rw [if_neg hroot]
      simp only [hroot, Bool.false_eq_true, false_or, true_and, Probe.calm, Book.checkIsTrustedNode, if_false,
        decide_eq_true_eq]
      have hcases : (leaf.transaction.isSpiceTransfer = false ∨ leaf.signerPublicAddress ∈ b.trustedNodesDB) ↔
          ¬ leaf.Spends b := by
        rw [Vertex.Spends, not_and_or, not_not, Bool.not_eq_true]
      by_cases hspends : leaf.Spends b
      · have hfunds := validateFunds_calm_iff hfit hget order
        rw [Probe.calm] at hfunds
        rw [if_neg (mt hcases.mp (not_not.mpr hspends)), hfunds]
        simp [hspends]
      · have hnone : ∀ k, b.dag.getVertex k = none ↔ k ∉ b.dag.graph.nodes := fun k => Digraph.get_eq_none
        rw [if_pos (hcases.mpr hspends)]
        simp only [hnone, hspends, not_false_eq_true, true_and, false_and, or_false]
        split
        next hr => simp [hr]
        next hr =>
          split
          next hl => simp [hl]
          next hl => simp [not_not.mp hl, not_not.mp hr]

/-- CONDITION on the cut: it leaves the parents of the leaf, those it names and those it has edges from. -/
structure ParentsKept (b : Book) (top : Hash) (leaf : Vertex) : Prop where
  arcs : ∀ p, b.dag.graph.Arc p leaf.hash → ¬ b.dag.graph.Anc p top
  named : ∀ p ∈ leaf.parentHashes, ¬ b.dag.graph.Anc p top

/-- The judgement stands when the parents of the leaf are kept and its issuer stays on its side of zero. -/
theorem Cut.judged_iff (h : Cut env.codec t b b' top) (hleaf : ¬ b.dag.graph.Anc leaf.hash top)
    (hkept : ParentsKept b top leaf)
    (hworth : 0 ≤ worth env.codec b' leaf.hash leaf.transaction.issuerAddress ↔
      0 ≤ worth env.codec b leaf.hash leaf.transaction.issuerAddress) :
    Judged env b' leaf ↔ Judged env b leaf := by
  have hroot : b'.dag.graph.isRoot leaf.hash = true ↔ b.dag.graph.isRoot leaf.hash = true := by
    rw [Digraph.isRoot_iff, Digraph.isRoot_iff]
    constructor
    · intro hno p hp
      exact hno p ((h.arc _ _).mpr ⟨hp, hkept.arcs p hp, hleaf⟩)
    · intro hno p hp
      exact hno p ((h.arc _ _).mp hp).1
  have htrusted : b'.trustedNodesDB = b.trustedNodesDB := by rw [h.frame]
  have hspends : leaf.Spends b' ↔ leaf.Spends b := by rw [Vertex.Spends, Vertex.Spends, htrusted]
  have hnodes : ∀ p ∈ leaf.parentHashes, (p ∈ b'.dag.graph.nodes ↔ p ∈ b.dag.graph.nodes) := by
    intro p hp
    rw [Digraph.mem_nodes, Digraph.mem_nodes]
    refine exists_congr fun v => ?_
    exact (h.getVertex_iff).trans (and_iff_left (hkept.named p hp))
  have hparents : (∀ u, b'.dag.getVertex u.hash = some u → b'.dag.graph.Anc u.hash leaf.hash →
        u.hash ∈ leaf.parentHashes → u.verify env.verifier = true) ↔
      ∀ u, b.dag.getVertex u.hash = some u → b.dag.graph.Anc u.hash leaf.hash →
        u.hash ∈ leaf.parentHashes → u.verify env.verifier = true := by
    refine forall_congr' fun u => ?_
    rw [h.getVertex_iff, h.anc_iff hleaf]
    have hnot := hkept.named u.hash
    constructor
    · intro hall hget hanc hmem
      exact hall ⟨hget, hnot hmem⟩ ⟨hanc, hnot hmem⟩ hmem
    · rintro hall ⟨hget, -⟩ ⟨hanc, -⟩ hmem
      exact hall hget hanc hmem
  rw [Judged, Judged, hroot, hspends, hnodes _ (by simp [Vertex.parentHashes]),
    hnodes _ (by simp [Vertex.parentHashes]), hworth, hparents]

end Validation

/-- Truncation and money: seen from a leaf that is there before and after, the balance of an address is
    the same exactly when the cut leaves the address unmoved; and the leaf is judged as before when its
    parents are kept and its issuer is unmoved. -/
theorem truncate_moves_money {env : Env} (hc : env.codec.Faithful) {b b' : Book} {t : TruncateSchedule}
    {tip : Hash} (htip : (enumerate t.pick b.dag.graph.leaves).head? = some tip)
    (hok : b.truncate env t = (b', none)) {leaf : Vertex} (hleaf : IsLeafOf b leaf) (hleaf' : IsLeafOf b' leaf) :
    (∀ a : Address, a.length ≠ 32 → FundsFit env.codec b a → ∀ order order',
      ((∀ m, b'.balanceFrom env.codec leaf.hash ⟨order', none⟩ false a = .ok m ↔
          b.balanceFrom env.codec leaf.hash ⟨order, none⟩ false a = .ok m) ↔
        Unmoved env.codec b (b.cutTop t tip) leaf.hash a)) ∧
    (leaf.transaction.issuerAddress.length ≠ 32 → FundsFit env.codec b leaf.transaction.issuerAddress →
      Unmoved env.codec b (b.cutTop t tip) leaf.hash leaf.transaction.issuerAddress →
      ParentsKept b (b.cutTop t tip) leaf → ∀ order order',
        (b'.validateLeaf env (.calm order') leaf = .ok () ↔ b.validateLeaf env (.calm order) leaf = .ok ())) := by
  have hcut : Cut env.codec t b b' (b.cutTop t tip) := by
    have := truncate_ok htip (by rw [hok])
    rwa [hok] at this
  have hout := (hcut.getVertex_iff.mp hleaf'.1).2
  refine ⟨fun a ha hfit order order' => hcut.balanceFrom_iff hc hfit ha hleaf.1 hleaf'.1 order order', ?_⟩
  intro ha hfit hunmoved hkept order order'
  have hfit' := hcut.fundsFit hc hfit ha
  have hworth := hcut.worth_eq hc hfit ha hout
  have hweight : b'.isValidWeight leaf.weight = b.isValidWeight leaf.weight := by
    rw [hcut.frame]
    rfl
  rw [validateLeaf_calm_iff (hfit'.past _) hleaf'.1, validateLeaf_calm_iff (hfit.past _) hleaf.1, hweight,
    hcut.judged_iff hout hkept]
  rw [hworth]
  rcases hunmoved with hgain | ⟨hbefore, hafter⟩
  · rw [hgain, add_zero]
  · constructor <;> intro hle <;> omega

/-! ### Sums over a chain -/

namespace Transparent

section Sums

variable {receiver : Address} {s : Node} {i : ℕ}

theorem link_value (j : ℕ) : (link receiver (j + 2)).transaction.spice.value = 0 := Melange.value_zero

theorem sum_links (w : Vertex → ℕ) (hw : ∀ j, w (link receiver (j + 2)) = 0) (n : ℕ) :
    (((List.range (n + 2)).map (link receiver)).map w).sum = w (link receiver 0) + w (link receiver 1) := by
  induction n with
  | zero => simp [List.range_succ]
  | succ n ih => rw [List.range_succ, List.map_append, List.map_append, List.sum_append, ih]; simp [hw]

theorem perm_links {vs : List Vertex} (hnd : vs.Nodup) {j : ℕ} (hj : j ≤ 2 ^ 32)
    (hmem : ∀ v, v ∈ vs ↔ ∃ k < j, v = link receiver k) :
    vs.Perm ((List.range j).map (link receiver)) := by
  have hlinks : ((List.range j).map (link receiver)).Nodup := by
    refine List.Nodup.map_on (fun x hx y hy heq => ?_) List.nodup_range
    rw [List.mem_range] at hx hy
    exact link_hash_inj (by omega) (by omega) (congrArg Vertex.hash heq)
  refine (List.perm_ext_iff_of_nodup hnd hlinks).mpr fun v => ?_
  rw [hmem, List.mem_map]
  simp [eq_comm]

theorem Chain.cutAt_perm (h : Chain receiver i s) (hi : i < 2 ^ 32) {j : ℕ} (hj : j ≤ i) :
    (s.book.dag.cutAt (link receiver j).hash).Perm ((List.range j).map (link receiver)) := by
  have hnd : (s.book.dag.cutAt (link receiver j).hash).Nodup := (Dag.above_nodup _ _).of_map _
  refine perm_links hnd (by omega) fun v => ?_
  rw [Dag.cutAt, Dag.mem_above, h.anc_iff hi hj]
  constructor
  · rintro ⟨hv, k, hk, heq⟩
    rw [heq, h.get_link (by omega)] at hv
    cases hv
    exact ⟨k, hk, rfl⟩
  · rintro ⟨k, hk, rfl⟩
    exact ⟨h.get_link (by omega), k, hk, rfl⟩

theorem Chain.all_perm (h : Chain receiver i s) (hi : i < 2 ^ 32) :
    s.book.dag.all.Perm ((List.range (i + 1)).map (link receiver)) := by
  have hnd : s.book.dag.all.Nodup := Dag.vertices_nodup s.book.dag.graph.nodes.keys_nodup
  refine perm_links hnd (by omega) fun v => ?_
  rw [Dag.mem_all, h.get]
  constructor
  · rintro ⟨k, hk, rfl, -⟩
    exact ⟨k, by omega, rfl⟩
  · rintro ⟨k, hk, rfl⟩
    exact ⟨k, by omega, rfl, rfl⟩

theorem Chain.past_perm (h : Chain receiver i s) (hi : i < 2 ^ 32) :
    (s.book.dag.past (link receiver i).hash).Perm ((List.range (i + 1)).map (link receiver)) := by
  have hnd : (s.book.dag.past (link receiver i).hash).Nodup := Dag.vertices_nodup (s.book.dag.past_nodup _)
  refine perm_links hnd (by omega) fun v => ?_
  rw [Dag.mem_past, h.anc_iff hi le_rfl]
  constructor
  · rintro ⟨-, hv⟩
    obtain ⟨k, hk, rfl, -⟩ := (h.get _ _).mp hv
    exact ⟨k, by omega, rfl⟩
  · rintro ⟨k, hk, rfl⟩
    refine ⟨?_, h.get_link (by omega)⟩
    rcases Nat.lt_succ_iff_lt_or_eq.mp hk with hk | rfl
    · exact Or.inr ⟨k, hk, rfl⟩
    · exact Or.inl rfl

theorem Chain.aside_eq (h : Chain receiver i s) (hi : i < 2 ^ 32) {j : ℕ} (hj : j ≤ i) :
    s.book.dag.aside (link receiver j).hash (link receiver i).hash = [] := by
  rw [Dag.aside, List.filter_eq_nil_iff]
  intro v hv
  rw [(h.cutAt_perm hi hj).mem_iff, List.mem_map] at hv
  obtain ⟨k, hk, rfl⟩ := hv
  rw [List.mem_range] at hk
  rw [decide_eq_true_eq, not_not, (h.past_perm hi).mem_iff, List.mem_map]
  exact ⟨k, List.mem_range.mpr (by omega), rfl⟩

theorem Chain.fundsFit (h : Chain receiver (i + 2) s) (hi : i + 2 < 2 ^ 32) (a : Address) :
    FundsFit codec s.book a ∧ (s.book.stored codec a).value = 0 := by
  refine SpiceFits.fundsFit (SpiceFits.of_total (fun v hv => ?_) ?_) h.unstored a
  · rw [(h.all_perm hi).mem_iff, List.mem_map] at hv
    obtain ⟨k, -, rfl⟩ := hv
    match k with
    | 0 => exact Melange.norm_zero
    | 1 => exact Melange.norm_zero
    | k + 2 => exact Melange.norm_zero
  · rw [((h.all_perm hi).map _).sum_eq, sum_links (fun v => v.transaction.spice.value) link_value (i + 1)]
    have hsum : (⟨10, 0⟩ : Melange).value + (⟨4, 0⟩ : Melange).value < Melange.cap := by decide +kernel
    exact hsum

theorem Chain.worth_eq (h : Chain receiver (i + 2) s) (hi : i + 2 < 2 ^ 32) (a : Address) :
    worth codec s.book (link receiver (i + 2)).hash a =
      ((receivedBy a (link receiver 0) + receivedBy a (link receiver 1) : ℕ) : ℤ) -
        (issuedBy a (link receiver 0) + issuedBy a (link receiver 1) : ℕ) := by
  have hpast := h.past_perm hi
  rw [worth, (h.fundsFit hi a).2, received_perm a hpast, issued_perm a hpast, received, issued,
    sum_links (receivedBy a) (fun j => by simp [receivedBy, link_value]) (i + 1),
    sum_links (issuedBy a) (fun j => by simp [issuedBy, link_value]) (i + 1)]
  push_cast
  ring

theorem Chain.gain_eq (h : Chain receiver (i + 2) s) (hi : i + 2 < 2 ^ 32) (a : Address) :
    gain codec s.book (link receiver 2).hash (link receiver (i + 2)).hash a =
      ((issuedBy a (link receiver 0) + issuedBy a (link receiver 1) : ℕ) : ℤ) -
        (sentBy a (link receiver 0) + sentBy a (link receiver 1) : ℕ) +
      if sentBy a (link receiver 0) + sentBy a (link receiver 1) ≤
          receivedBy a (link receiver 0) + receivedBy a (link receiver 1) then 0
      else ((sentBy a (link receiver 0) + sentBy a (link receiver 1) : ℕ) : ℤ) := by
  have hcut := h.cutAt_perm hi (j := 2) (by omega)
  rw [gain, h.aside_eq hi (by omega), (h.fundsFit hi a).2, received_perm a hcut, issued_perm a hcut,
    sent_perm a hcut]
  simp [List.range_succ]

theorem Chain.leaf_cut (h : Chain receiver 1002 s) :
    ∃ b', s.book.truncate (env hub) (cutChain receiver 1002) = (b', none) ∧
    Cut codec (cutChain receiver 1002) s.book b' (link receiver 2).hash ∧
    IsLeafOf s.book (link receiver 1002) ∧ IsLeafOf b' (link receiver 1002) := by
  obtain ⟨b', hb', hcut⟩ := h.cut (m := 2) (by omega)
  have hleaf := h.isLeafOf (by omega)
  have hout : ¬ s.book.dag.graph.Anc (link receiver 1002).hash (link receiver 2).hash := by
    rw [h.anc_iff (by omega) (by omega)]
    rintro ⟨k, hk, heq⟩
    have := link_hash_inj (by omega) (by omega) heq
    omega
  refine ⟨b', hb', hcut, hleaf, hcut.getVertex_iff.mpr ⟨hleaf.1, hout⟩, ?_⟩
  rintro ⟨c, hc⟩
  exact hleaf.2 ⟨c, ((hcut.arc _ _).mp hc).1⟩

end Sums

/-- The node after a chain of 1002 links. -/
def longChain (receiver : Address) : Node := run (Node.step (env hub)) (start 10) (chain receiver 1002)

/-- An address that paid itself 4 has 10 before the truncation and 14 after it. -/
theorem self_payment_minted : ∃ b', (longChain (wallet 7)).book.truncate (env hub)
      (cutChain (wallet 7) 1002) = (b', none) ∧
    IsLeafOf (longChain (wallet 7)).book (link (wallet 7) 1002) ∧
    IsLeafOf b' (link (wallet 7) 1002) ∧
    (longChain (wallet 7)).book.balanceFrom codec (link (wallet 7) 1002).hash ⟨[], none⟩ false (wallet 7) =
      .ok ⟨10, 0⟩ ∧
    b'.balanceFrom codec (link (wallet 7) 1002).hash ⟨[], none⟩ false (wallet 7) = .ok ⟨14, 0⟩ := by
  have hchain : Chain (wallet 7) 1002 (longChain (wallet 7)) := chain_run (by decide +kernel) 1002 (by omega)
  obtain ⟨b', hb', hcut, hleaf, hleaf'⟩ := hchain.leaf_cut
  have hfit := (hchain.fundsFit (i := 1000) (by omega) (wallet 7)).1
  have hlen : (wallet 7).length ≠ 32 := by decide
  have hworth : worth codec (longChain (wallet 7)).book (link (wallet 7) 1002).hash (wallet 7) =
      ((⟨10, 0⟩ : Melange).value : ℤ) := by
    rw [hchain.worth_eq (i := 1000) (by omega)]
    decide +kernel
  have hgain : gain codec (longChain (wallet 7)).book (link (wallet 7) 2).hash (link (wallet 7) 1002).hash (wallet 7) =
      ((⟨4, 0⟩ : Melange).value : ℤ) := by
    rw [hchain.gain_eq (i := 1000) (by omega)]
    decide +kernel
  have hafter := hcut.worth_eq codec_faithful hfit hlen (hcut.getVertex_iff.mp hleaf'.1).2
  refine ⟨b', hb', hleaf, hleaf', ?_, ?_⟩
  · exact (balanceFrom_ok_iff_worth (hfit.past _) (Dag.mem_nodes hleaf.1) _ _).mpr
      ⟨by decide +kernel, hworth.symm⟩
  · refine (balanceFrom_ok_iff_worth ((hcut.fundsFit codec_faithful hfit hlen).past _)
      (Dag.mem_nodes hleaf'.1) _ _).mpr ⟨by decide +kernel, ?_⟩
    rw [hafter, hworth, hgain]
    decide +kernel

/-- A payment of 4 out of 10 to somebody else is settled, and the leaf is judged as before. -/
theorem payment_settled : ∃ b', (longChain (wallet 8)).book.truncate
      (env hub) (cutChain (wallet 8) 1002) = (b', none) ∧
    (∀ m, b'.balanceFrom codec (link (wallet 8) 1002).hash ⟨[], none⟩ false (wallet 7) = .ok m ↔
      (longChain (wallet 8)).book.balanceFrom codec
        (link (wallet 8) 1002).hash ⟨[], none⟩ false (wallet 7) = .ok m) ∧
    (b'.validateLeaf (env hub) (.calm []) (link (wallet 8) 1002) = .ok () ↔
      (longChain (wallet 8)).book.validateLeaf (env hub) (.calm [])
        (link (wallet 8) 1002) = .ok ()) := by
  have hchain : Chain (wallet 8) 1002 (longChain (wallet 8)) := chain_run (by decide +kernel) 1002 (by omega)
  obtain ⟨b', hb', -, hleaf, hleaf'⟩ := hchain.leaf_cut
  have htip : (enumerate (cutChain (wallet 8) 1002).pick (longChain (wallet 8)).book.dag.graph.leaves).head? =
      some (link (wallet 8) 1002).hash := by
    rw [hchain.leaves_eq (by omega)]
    rfl
  have hunmoved : ∀ a ∈ [wallet 7, wallet 9], Unmoved codec (longChain (wallet 8)).book
      ((longChain (wallet 8)).book.cutTop (cutChain (wallet 8) 1002) (link (wallet 8) 1002).hash)
      (link (wallet 8) 1002).hash a := by
    intro a ha
    refine Or.inl ?_
    rw [hchain.cutTop (m := 2) (by omega), hchain.gain_eq (i := 1000) (by omega)]
    revert a
    decide +kernel
  obtain ⟨hbalance, hverdict⟩ := truncate_moves_money codec_faithful htip hb' hleaf hleaf'
  have hfit := fun a => (hchain.fundsFit (i := 1000) (by omega) a).1
  refine ⟨b', hb', ?_, ?_⟩
  · exact (hbalance (wallet 7) (by decide) (hfit _) [] []).mpr (hunmoved _ (by simp))
  · refine hverdict (by decide) (hfit _) (hunmoved (wallet 9) (by simp)) ?_ [] []
    rw [hchain.cutTop (m := 2) (by omega)]
    have hkept : ∀ p, p = (link (wallet 8) 1001).hash →
        ¬ (longChain (wallet 8)).book.dag.graph.Anc p (link (wallet 8) 2).hash := by
      rintro p rfl hp
      obtain ⟨k, hk, heq⟩ := (hchain.anc_iff (by omega) (by omega) _).mp hp
      have := link_hash_inj (by omega) (by omega) heq
      omega
    refine ⟨fun p hp => hkept p ?_, fun p hp => hkept p ?_⟩
    · obtain ⟨k, hk, rfl, heq⟩ := (hchain.arc _ _).mp hp
      have := link_hash_inj (by omega) (by omega) heq
      rw [show k = 1001 by omega]
    · rcases List.mem_cons.mp hp with rfl | hp
      · rfl
      · exact List.mem_singleton.mp hp

end Transparent

end Computantis
