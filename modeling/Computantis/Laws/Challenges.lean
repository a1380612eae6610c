import Computantis.Laws.Rejecting
import Computantis.Laws.Throttling
import Computantis.Model.Session
import Computantis.Schemes.Lease

/-! @law challenges | name:Whose bytes, and until when | family:protocol | about:Model/Session

    The provider is a table of leases, so what it takes for an address is what `Data` gave out last for it,
    as long as that has not expired; the cleaner makes no difference. If signatures cannot be forged and the
    bytes are new when they are given out, an answer of `Waiting` or `TransactionsInDAG` therefore shows that
    the owner signed within the longevity before it.

        Data a d at t₀ ─── sign a d at t₁ ─── Waiting ⟨a, d, …⟩ at t₂      t₀ ≤ t₁ ≤ t₂ ≤ t₀ + longevity
             └────────── no other Data a ───────────┘ -/

namespace Computantis

open Schemes

theorem int64_times {t longevity : ℤ} (h0 : 0 ≤ t) (hlong : 0 ≤ longevity) (h : t + longevity < 2 ^ 63) :
    int64 t = t ∧ int64 (t + longevity) = t + longevity := by
  unfold int64
  exact ⟨Int.bmod_eq_of_le (by omega) (by omega), Int.bmod_eq_of_le (by omega) (by omega)⟩

namespace Session

/-! ### Histories -/

namespace Event

/-- When the event happens, as far as its time is looked at. -/
def time : Session.Event → Option Time
  | .data _ _ now => some now
  | .clean now => some now
  | .serve (.request _ w) => some w.now
  | .serve _ => none
  | .sign _ _ now => some now

/-- What an owner signs. -/
def signed : Session.Event → Option Bytes
  | .sign _ message _ => some message
  | _ => none

/-- What the server gives out. -/
def given : Session.Event → Option Bytes
  | .data _ buf _ => some buf
  | _ => none

/-- What the event does to the table of the provider. -/
def lease (longevity : ℤ) : Session.Event → Lease.Act Address Challenge ℤ
  | .data address buf now =>
    if address = [] then .idle else .grant address ⟨buf, int64 (now + longevity)⟩
  | .clean now => .sweep (int64 now)
  | _ => .idle

end Event

/-- The clock does not go back, and what expires does so before the clock of an `int64` ends. -/
structure Timely (longevity : ℤ) (es : List Session.Event) : Prop where
  ordered : (es.filterMap Event.time).Pairwise (· ≤ ·)
  inRange : ∀ t ∈ es.filterMap Event.time, 0 ≤ t ∧ t + longevity < 2 ^ 63

/-- Bytes that are given out have not been signed before. -/
def Fresh (es : List Session.Event) : Prop := es.Pairwise fun e f => ∀ message ∈ e.signed, f.given ≠ some message

/-- The last bytes that were given out for the address are these, and they have not expired. -/
def Current (longevity : ℤ) (es : List Session.Event) (address : Address) (data : Bytes) (now : Time) : Prop :=
  ∃ before t after, es = before ++ .data address data t :: after ∧
    (∀ data' t', .data address data' t' ∉ after) ∧ address ≠ [] ∧ now ≤ t + longevity

section Runs

variable {env : ServerEnv} {longevity : ℤ} {es : List Session.Event}

theorem service_down (env : ServerEnv) {s : Service} (hs : s.down = true) (e : Service.Event) :
    (s.step env e).1.down = true := by
  cases e <;> simp [Service.step, Service.serve, hs]

theorem step_down (env : ServerEnv) {s : Session} (hs : s.service.down = true) (e : Session.Event) :
    (s.step env e).1.service.down = true := by
  cases e with
  | data address buf now => simp [step, hs]
  | clean now => simp [step, hs]
  | serve e => cases e <;> simp only [step] <;> exact service_down env hs _
  | sign address message now => exact hs

theorem clean_data (p : DataProvider) (now : Time) :
    (p.clean now).data = Lease.sweep Challenge.timestamp (int64 now) p.data := by
  funext k
  simp only [DataProvider.clean, Lease.sweep]
  congr 1
  funext v
  rw [← decide_not]
  exact decide_eq_decide.mpr not_lt

theorem step_provider (env : ServerEnv) {s : Session} (hs : s.service.down = false) (e : Session.Event) :
    (s.step env e).1.provider.longevity = s.provider.longevity ∧
      (s.step env e).1.provider.data =
        Lease.act Challenge.timestamp s.provider.data (e.lease s.provider.longevity) := by
  cases e with
  | data address buf now =>
    by_cases ha : address = []
    · simp [step, hs, giveOut, Event.lease, ha, Lease.act]
    · simp [step, hs, giveOut, Event.lease, ha, Lease.act, DataProvider.provideData]
  | clean now =>
    simp only [step, hs, Bool.false_eq_true, if_false, Event.lease, Lease.act, ← clean_data]
    exact ⟨rfl, trivial⟩
  | serve e => cases e <;> exact ⟨rfl, rfl⟩
  | sign address message now => exact ⟨rfl, rfl⟩

/-- REFINES: as long as the process runs, its provider is the table of leases of the history. -/
theorem provider_run (service : Service) (seconds : UInt64) (es : List Session.Event)
    (hup : (reach (step env) (fresh service seconds) es).service.down = false) :
    (reach (step env) (fresh service seconds) es).provider.longevity = (DataProvider.new seconds).longevity ∧
      (reach (step env) (fresh service seconds) es).provider.data =
        run (Lease.act Challenge.timestamp) (fun _ => none)
          (es.map (Event.lease (DataProvider.new seconds).longevity)) := by
  induction es using List.reverseRecOn with
  | nil => exact ⟨rfl, rfl⟩
  | append_singleton es e ih =>
    rw [reach, run_append] at hup ⊢
    change ((reach (step env) (fresh service seconds) es).step env e).1.service.down = false at hup
    -- a server that runs now has been running before
    have hbefore : (reach (step env) (fresh service seconds) es).service.down = false := by
      by_contra h
      rw [step_down env (by simpa using h) e] at hup
      cases hup
    obtain ⟨hlong, hdata⟩ := ih hbefore
    obtain ⟨hlong', hdata'⟩ := step_provider env hbefore e
    rw [List.map_append, run_append]
    refine ⟨hlong'.trans hlong, hdata'.trans ?_⟩
    rw [hlong, hdata]
    rfl

theorem validateData_iff {p : DataProvider} {address : Address} {data : Bytes} {now : Time} :
    p.validateData address data now = true ↔
      ∃ c, Lease.sweep Challenge.timestamp (int64 now) p.data address = some c ∧ c.raw = data := by
  unfold DataProvider.validateData Lease.sweep
  cases p.data address with
  | none => simp
  | some d =>
    by_cases hd : d.timestamp < int64 now
    · simp [hd, Option.filter]
    · simp only [hd, if_false, Option.filter, not_lt.mp hd, decide_true, if_true, decide_eq_true_eq, Option.some.injEq,
        exists_eq_left']
      exact eq_comm

theorem last_lease_iff {address : Address} {c : Challenge} :
    Lease.last address (es.map (Event.lease longevity)) = some c ↔
      ∃ before data t after, es = before ++ .data address data t :: after ∧
        (∀ data' t', .data address data' t' ∉ after) ∧ address ≠ [] ∧ c = ⟨data, int64 (t + longevity)⟩ := by
  have hgrant (e : Session.Event) (c : Challenge) : e.lease longevity = .grant address c ↔
      ∃ data t, e = .data address data t ∧ address ≠ [] ∧ c = ⟨data, int64 (t + longevity)⟩ := by
    constructor
    · intro h
      cases e with
      | data a buf now =>
        by_cases ha : a = []
        · simp [Event.lease, ha] at h
        · simp only [Event.lease, ha, if_false, Lease.Act.grant.injEq] at h
          obtain ⟨rfl, rfl⟩ := h
          exact ⟨buf, now, rfl, ha, rfl⟩
      | clean now => cases h
      | serve e => cases e <;> cases h
      | sign a m now => cases h
    · rintro ⟨data, t, rfl, ha, rfl⟩
      simp [Event.lease, ha]
  rw [Lease.last_eq_some_iff]
  constructor
  · rintro ⟨before', after', heq, hafter⟩
    obtain ⟨before, rest, rfl, rfl, hrest⟩ := List.map_eq_append_iff.mp heq
    obtain ⟨e, after, rfl, he, rfl⟩ := List.map_eq_cons_iff.mp hrest
    obtain ⟨data, t, rfl, ha, hc⟩ := (hgrant e c).mp he
    refine ⟨before, data, t, after, rfl, fun data' t' hmem => ?_, ha, hc⟩
    exact hafter _ (List.mem_map.mpr ⟨_, hmem, (hgrant _ _).mpr ⟨data', t', rfl, ha, rfl⟩⟩)
  · rintro ⟨before, data, t, after, rfl, hafter, ha, hc⟩
    refine ⟨before.map (Event.lease longevity), after.map (Event.lease longevity), ?_, fun b hb => ?_⟩
    · rw [List.map_append, List.map_cons, (hgrant _ c).mpr ⟨data, t, rfl, ha, hc⟩]
    · obtain ⟨e, he, hb⟩ := List.mem_map.mp hb
      obtain ⟨data', t', rfl, -, -⟩ := (hgrant e b).mp hb
      exact hafter data' t' he

theorem validated_iff {service : Service} {seconds : UInt64}
    (hup : (reach (step env) (fresh service seconds) es).service.down = false) {now : Time}
    (hlong : 0 ≤ (DataProvider.new seconds).longevity)
    (htimes : ∀ t ∈ es.filterMap Event.time, (0 ≤ t ∧ t + (DataProvider.new seconds).longevity < 2 ^ 63) ∧ t ≤ now)
    (hnow : 0 ≤ now ∧ now + (DataProvider.new seconds).longevity < 2 ^ 63) (address : Address) (data : Bytes) :
    (reach (step env) (fresh service seconds) es).provider.validateData address data now = true ↔
      Current (DataProvider.new seconds).longevity es address data now := by
  have hpast : ∀ e ∈ es, ∀ t, e.time = some t → t ∈ es.filterMap Event.time := fun e he t ht =>
    List.mem_filterMap.mpr ⟨e, he, ht⟩
  have hsweeps : ∀ t, .sweep t ∈ es.map (Event.lease (DataProvider.new seconds).longevity) → t ≤ int64 now := by
    intro t ht
    obtain ⟨e, he, hsweep⟩ := List.mem_map.mp ht
    cases e with
    | data a buf u =>
      rw [Event.lease] at hsweep
      split at hsweep <;> cases hsweep
    | clean u =>
      obtain ⟨⟨h0, hu⟩, hle⟩ := htimes u (hpast _ he u rfl)
      cases hsweep
      rw [(int64_times h0 hlong hu).1, (int64_times hnow.1 hlong hnow.2).1]
      exact hle
    | serve e => cases e <;> cases hsweep
    | sign a m u => cases hsweep
  rw [validateData_iff, (provider_run service seconds es hup).2, Lease.live_run Challenge.timestamp hsweeps]
  constructor
  · rintro ⟨c, hc, hraw⟩
    obtain ⟨hlast, hlive⟩ := Option.filter_eq_some_iff.mp hc
    obtain ⟨before, d, t, after, rfl, hafter, ha, rfl⟩ := last_lease_iff.mp hlast
    obtain ⟨⟨h0, ht⟩, -⟩ := htimes t (hpast (.data address d t) (by simp) t rfl)
    have hlive := of_decide_eq_true hlive
    rw [(int64_times hnow.1 hlong hnow.2).1, (int64_times h0 hlong ht).2] at hlive
    cases hraw
    exact ⟨before, t, after, rfl, hafter, ha, hlive⟩
  · rintro ⟨before, t, after, rfl, hafter, ha, hlive⟩
    obtain ⟨⟨h0, ht⟩, -⟩ := htimes t (hpast (.data address data t) (by simp) t rfl)
    refine ⟨⟨data, int64 (t + (DataProvider.new seconds).longevity)⟩, ?_, rfl⟩
    refine Option.filter_eq_some_iff.mpr ⟨last_lease_iff.mpr ⟨before, data, t, after, rfl, hafter, ha, rfl⟩, ?_⟩
    rw [(int64_times hnow.1 hlong hnow.2).1, (int64_times h0 hlong ht).2]
    exact decide_eq_true hlive

end Runs

/-! ### The configured longevity -/

/-- The longevity as it is meant: seconds, and a minute where none is given. -/
def lifetime (seconds : UInt64) : ℤ := (if seconds = 0 then 60 else seconds).toNat * 10 ^ 9

theorem lifetime_nonneg (seconds : UInt64) : 0 ≤ lifetime seconds := by
  exact Int.mul_nonneg (Int.natCast_nonneg _) (by decide)

theorem longevity_eq {seconds : UInt64} (h : seconds.toNat ≤ 9223372036) :
    (DataProvider.new seconds).longevity = lifetime seconds := by
  have hlt : lifetime seconds < 2 ^ 63 := by
    unfold lifetime
    split
    · simp
    · omega
  have hlong : (DataProvider.new seconds).longevity = int64 (lifetime seconds) := by
    rw [DataProvider.new, lifetime]
  rw [hlong]
  exact (int64_times (lifetime_nonneg seconds) le_rfl (by rw [Int.add_zero]; exact hlt)).1

/-! ### The two handlers -/

section Handlers

variable {env : ServerEnv} {w : Circumstance} {s : Service} {r : Request} {req : SignedHash}

theorem handle_ok (hr : r.challenged = some req) {reply : Reply} (h : (s.handle env w r).2 = .ok reply) :
    w.dataValid = true ∧ req.signed env.ledger.verifier = .ok true := by
  cases r with
  | waiting q =>
    cases hr
    simp only [Service.handle, Service.waiting] at h
    split at h
    · cases h
    next hvalid =>
      refine ⟨by simpa using hvalid, ?_⟩
      split at h
      · cases h
      · cases h
      next hsigned => exact hsigned
  | transactionsInDAG q =>
    cases hr
    simp only [Service.handle, Service.transactionsInDAG, throttled_eq] at h
    split at h
    · cases h
    · split at h
      · cases h
      · simp only [Service.answerTransactionsInDAG] at h
        split at h
        · cases h
        next hvalid =>
          refine ⟨by simpa using hvalid, ?_⟩
          split at h
          · cases h
          · cases h
          next hsigned => exact hsigned
  | _ => cases hr

theorem handle_unverified_iff (hr : r.challenged = some req) (hsigned : req.signed env.ledger.verifier = .ok true)
    (hpass : r.Passes w s.flash) : (s.handle env w r).2 = .error .errVerification ↔ w.dataValid = false := by
  cases r with
  | waiting q =>
    cases hr
    simp only [Service.handle, Service.waiting, hsigned]
    by_cases hvalid : w.dataValid = false
    · simp [hvalid]
    · rw [if_neg hvalid]
      refine iff_of_false ?_ hvalid
      split <;> simp
  | transactionsInDAG q =>
    cases hr
    obtain ⟨hget, hflash⟩ := hpass _ rfl
    simp only [Service.handle, Service.transactionsInDAG, throttled_eq, hget, Bool.false_eq_true, if_false,
      if_neg hflash, Service.answerTransactionsInDAG, hsigned]
    by_cases hvalid : w.dataValid = false
    · simp [hvalid]
    · rw [if_neg hvalid]
      refine iff_of_false ?_ hvalid
      split <;> simp
  | _ => cases hr

end Handlers

section Rounds

variable {env : ServerEnv} {service : Service} {seconds : UInt64} {es : List Session.Event} {r : Request}
  {w : Circumstance} {req : SignedHash}

theorem Timely.le {longevity : ℤ} {before after : List Session.Event} {e f : Session.Event} {t u : Time}
    (h : Timely longevity (before ++ e :: after)) (he : e.time = some t) (hf : f ∈ after) (hu : f.time = some u) :
    t ≤ u := by
  have hordered := h.ordered
  rw [List.filterMap_append, List.filterMap_cons, he] at hordered
  exact List.rel_of_pairwise_cons (List.pairwise_append.mp hordered).2.1 (List.mem_filterMap.mpr ⟨f, hf, hu⟩)

theorem Timely.past {longevity : ℤ} (h : Timely longevity (es ++ [.serve (.request r w)])) :
    (∀ t ∈ es.filterMap Event.time, (0 ≤ t ∧ t + longevity < 2 ^ 63) ∧ t ≤ w.now) ∧
      0 ≤ w.now ∧ w.now + longevity < 2 ^ 63 := by
  have hrange : ∀ e ∈ es ++ [.serve (.request r w)], ∀ t, e.time = some t → 0 ≤ t ∧ t + longevity < 2 ^ 63 :=
    fun e he t ht => h.inRange t (List.mem_filterMap.mpr ⟨e, he, ht⟩)
  refine ⟨fun t ht => ?_, hrange (.serve (.request r w)) (by simp) _ rfl⟩
  obtain ⟨e, he, htime⟩ := List.mem_filterMap.mp ht
  refine ⟨hrange e (List.mem_append_left _ he) t htime, ?_⟩
  obtain ⟨before, after, rfl⟩ := List.append_of_mem he
  rw [List.append_assoc, List.cons_append] at h
  exact h.le htime (List.mem_append_right _ (List.mem_singleton_self _)) rfl

theorem informed_iff (hsec : seconds.toNat ≤ 9223372036)
    (htimely : Timely (lifetime seconds) (es ++ [.serve (.request r w)])) (hr : r.challenged = some req)
    (hup : (reach (step env) (fresh service seconds) es).service.down = false) :
    ((reach (step env) (fresh service seconds) es).informed r w).dataValid = true ↔
      Current (lifetime seconds) es req.address req.data w.now := by
  obtain ⟨htimes, hnow⟩ := htimely.past
  rw [← longevity_eq hsec] at htimes hnow ⊢
  rw [← validated_iff hup (by rw [longevity_eq hsec]; exact lifetime_nonneg seconds) htimes hnow, informed, hr]
  rfl

end Rounds

end Session

/-- EXACT (the window): after any history at a server that still runs, a signed request that is let past the
    throttle is refused as unverified exactly when its data is not what `Data` gave out last for its address,
    or has been for longer than the configured longevity. When the cleaner ran does not matter, how often the
    data was used before does not matter, and who asked for the data does not matter. -/
theorem refused_iff_not_current (env : ServerEnv) (service : Service) {seconds : UInt64} {es : List Session.Event}
    {r : Request} {w : Circumstance} {req : SignedHash} (hsec : seconds.toNat ≤ 9223372036)
    (htimely : Session.Timely (Session.lifetime seconds) (es ++ [.serve (.request r w)]))
    (hr : r.challenged = some req) (hsigned : req.signed env.ledger.verifier = .ok true)
    (hup : (reach (Session.step env) (Session.fresh service seconds) es).service.down = false)
    (hpass : r.Passes w (reach (Session.step env) (Session.fresh service seconds) es).service.flash) :
    ((reach (Session.step env) (Session.fresh service seconds) es).step env (.serve (.request r w))).2 =
        .served (.answer (.error .errVerification)) ↔
      ¬ Session.Current (Session.lifetime seconds) es req.address req.data w.now := by
  rw [← Session.informed_iff hsec htimely hr hup, Bool.not_eq_true,
    ← Session.handle_unverified_iff hr hsigned (w := Session.informed _ r w) hpass]
  simp only [Session.step, Service.step, serve_up hup, Session.Response.served.injEq]
  generalize Service.handle env _ _ r = res
  split
  next hpanic => simp [hpanic]
  next => simp

namespace Transparent

/-- Two sets of bytes that a server gives out. -/
def blob : Bytes := [4, 2]
def otherBlob : Bytes := [2, 4]

/-- `wallet 8` asks for what waits for it, with the first of them. -/
def askWaiting : SignedHash := ⟨wallet 8, blob, (digest blob).bytes, wallet 8⟩

/-- A contract for `wallet 8` is proposed, and `wallet 8` signs what it is given. -/
def signedIn : List Session.Event :=
  [.serve (.request (.propose (some (deal 0).toProto)) (calmly 5)), .data (wallet 8) blob 6, .sign (wallet 8) blob 7,
    .clean 8]

end Transparent

open Transparent in
/-- The bytes count for `wallet 8` until somebody else asks for some in its name. -/
theorem asked_in_its_name :
    ((reach (Session.step serverEnv) (Session.fresh service 0) signedIn).step serverEnv
        (.serve (.request (.waiting askWaiting) (calmly 9)))).2 ≠ .served (.answer (.error .errVerification)) ∧
      ¬ Session.Current (Session.lifetime 0) (signedIn ++ [.data (wallet 8) otherBlob 8]) (wallet 8) blob 9 := by
  have hpass (flash : Flashback) : (Request.waiting askWaiting).Passes (calmly 9) flash := by
    intro a ha
    cases ha
  constructor
  · refine (refused_iff_not_current serverEnv service (by decide) ⟨by decide +kernel, by decide +kernel⟩ rfl
      (by decide +kernel) (by decide +kernel) (hpass _)).not.mpr (not_not.mpr ?_)
    exact ⟨signedIn.take 1, 6, [.sign (wallet 8) blob 7, .clean 8], rfl, by simp, by decide, by decide +kernel⟩
  · have htimely : Session.Timely (Session.lifetime 0) (signedIn ++ [.data (wallet 8) otherBlob 8] ++
        [.serve (.request (.waiting askWaiting) (calmly 9))]) := ⟨by decide +kernel, by decide +kernel⟩
    exact (refused_iff_not_current serverEnv service (by decide) htimely rfl (by decide +kernel) (by decide +kernel)
      (hpass _)).mp (by decide +kernel)

/-- RECENT: if the signature of a request, as far as it verifies, is one that the owner of its address has
    made, and bytes that are given out have never been signed before, then a request for which `Waiting` or
    `TransactionsInDAG` returns something was signed by the owner after its data was given out for that
    address, which is no longer ago than the configured longevity, and nothing else was given out since. -/
theorem answered_recently (env : ServerEnv) (service : Service) {seconds : UInt64} {es : List Session.Event}
    {r : Request} {w : Circumstance} {req : SignedHash} (hsec : seconds.toNat ≤ 9223372036)
    (htimely : Session.Timely (Session.lifetime seconds) (es ++ [.serve (.request r w)]))
    (hr : r.challenged = some req)
    (hunforged : req.signed env.ledger.verifier = .ok true → ∃ t, .sign req.address req.data t ∈ es)
    (hfresh : Session.Fresh es)
    {reply : Reply}
    (hanswer : ((reach (Session.step env) (Session.fresh service seconds) es).step env (.serve (.request r w))).2 =
      .served (.answer (.ok reply))) :
    ∃ es₀ t₀ es₁ t₁ es₂, es = es₀ ++ .data req.address req.data t₀ :: (es₁ ++ .sign req.address req.data t₁ :: es₂) ∧
      (∀ buf t, .data req.address buf t ∉ es₁ ++ es₂) ∧
      t₀ ≤ t₁ ∧ t₁ ≤ w.now ∧ w.now ≤ t₀ + Session.lifetime seconds := by
  have hup : (reach (Session.step env) (Session.fresh service seconds) es).service.down = false := by
    by_contra h
    simp only [Session.step, Service.step, Service.serve, if_pos (Bool.not_eq_false _ ▸ h)] at hanswer
    cases hanswer
  simp only [Session.step, Service.step, serve_up hup, Session.Response.served.injEq] at hanswer
  have hhandle : ((reach (Session.step env) (Session.fresh service seconds) es).service.handle env
      ((reach (Session.step env) (Session.fresh service seconds) es).informed r w) r).2 = .ok reply := by
    revert hanswer
    generalize Service.handle env _ _ r = res
    split
    · simp
    · simp
  obtain ⟨hvalid, hsigned⟩ := Session.handle_ok hr hhandle
  obtain ⟨before, t₀, after, rfl, hafter, -, hlive⟩ := (Session.informed_iff hsec htimely hr hup).mp hvalid
  obtain ⟨t₁, hsign⟩ := hunforged hsigned
  -- the signature stands behind the bytes, which were new
  have hsign : .sign req.address req.data t₁ ∈ after := by
    rcases List.mem_append.mp hsign with h | h
    · exact absurd rfl ((List.pairwise_append.mp hfresh).2.2 _ h _ (List.mem_cons_self ..) _ rfl)
    · rcases List.mem_cons.mp h with h | h
      · cases h
      · exact h
  obtain ⟨es₁, es₂, rfl⟩ := List.append_of_mem hsign
  obtain ⟨hpast, -⟩ := htimely.past
  refine ⟨before, t₀, es₁, t₁, es₂, rfl, fun buf t h => hafter buf t ?_, ?_, ?_, hlive⟩
  · rcases List.mem_append.mp h with h | h
    · exact List.mem_append_left _ h
    · exact List.mem_append_right _ (List.mem_cons_of_mem _ h)
  · rw [List.append_assoc, List.cons_append] at htimely
    exact htimely.le (e := .data req.address req.data t₀) (f := .sign req.address req.data t₁) rfl (by simp) rfl
  · exact (hpast t₁ (List.mem_filterMap.mpr ⟨.sign req.address req.data t₁, by simp, rfl⟩)).2

open Transparent in
/-- `wallet 8` reads the contract with bytes that it signed two units of time before. -/
theorem waiting_read_recently :
    ∃ es₀ t₀ es₁ t₁ es₂, signedIn = es₀ ++ .data (wallet 8) blob t₀ :: (es₁ ++ .sign (wallet 8) blob t₁ :: es₂) ∧
      (∀ buf t, .data (wallet 8) buf t ∉ es₁ ++ es₂) ∧ t₀ ≤ t₁ ∧ t₁ ≤ 9 ∧ 9 ≤ t₀ + Session.lifetime 0 := by
  have htimely : Session.Timely (Session.lifetime 0)
      (signedIn ++ [.serve (.request (.waiting askWaiting) (calmly 9))]) := ⟨by decide +kernel, by decide +kernel⟩
  have hanswer : ((reach (Session.step serverEnv) (Session.fresh service 0) signedIn).step serverEnv
      (.serve (.request (.waiting askWaiting) (calmly 9)))).2 =
        .served (.answer (.ok (Service.transactionsReply [deal 0]))) := by decide +kernel
  exact answered_recently serverEnv service (by decide) htimely rfl (fun _ => ⟨7, by simp [signedIn, askWaiting]⟩)
    (by unfold Session.Fresh; decide +kernel) hanswer

end Computantis
