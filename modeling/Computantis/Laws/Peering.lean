import Computantis.Laws.Assumptions
import Computantis.Model.Peers

/-! @law peering | name:Which announcement the table follows | family:invariant | about:Model/Peers

    A request carries the time of its signature, and both handlers check it as part of the signed bytes, but
    neither compares it with the time of the entry that it replaces. So the table follows the request that came
    last, and that is the newest one only as long as nobody sends an older one again. A dial that fails costs
    `Announce` the entry that it has dropped before.

        t = 1, url A ──▶ t = 2, url B ──▶ t = 1, url A again:   the entry is A
        t = 1, url A ──▶ t = 2, url B, dial fails:              the entry is gone -/

namespace Computantis

open Schemes

theorem NodesMap.erase_eq_iff (nodes : NodesMap) (a : Address) : nodes.erase a = nodes ↔ a ∉ nodes := by
  constructor
  · intro h hmem
    rw [← h] at hmem
    exact (AList.mem_erase.mp hmem).1 rfl
  · intro h
    exact AList.ext (List.kerase_of_notMem_keys h)

/-- The signature of the connection data is the one of its address. -/
def ConnectionData.Genuine (v : Verifier) (cd : ConnectionData) : Prop := cd.validate v = .ok true

/-- No request of the same address in the record is newer. -/
def ConnectionData.LatestOf (log : List ConnectionData) (cd : ConnectionData) : Prop :=
  ∀ old ∈ log, old.publicAddress = cd.publicAddress → old.createdAt ≤ cd.createdAt

namespace PeerTable

variable {env : PeerEnv} {s : PeerTable} {r : PeerRequest}

/-- Every entry is the URL of the newest request of its address that was processed with success. -/
def Follows (s : PeerTable) : Prop :=
  ∀ a url, s.nodes.lookup a = some url →
    ∃ cd ∈ s.processed, cd.publicAddress = a ∧ cd.url = url ∧ cd.LatestOf s.processed

/-- A request that is answered with an error leaves the map. -/
def Kept (env : PeerEnv) (s : PeerTable) (r : PeerRequest) : Prop :=
  s.down = false → (s.handle env r).2.isOk = false → (s.handle env r).1.nodes = s.nodes

/-- CONDITION on a request and the table before it: a genuine request that can be dialled is not older than
    one of its address processed before, or names the URL of the newest of them; a genuine announcement that
    cannot be dialled is of an unknown address. -/
def Timely (env : PeerEnv) (s : PeerTable) (r : PeerRequest) : Prop :=
  s.down = false → r.data.Genuine env.verifier →
    (r.dials = true → r.data.LatestOf s.processed ∨
      ∃ old ∈ s.processed, old.publicAddress = r.data.publicAddress ∧ old.url = r.data.url ∧
        old.LatestOf s.processed) ∧
    (r.dials = false → r.isAnnounce = true → r.data.publicAddress ∉ s.nodes)

theorem handle_cases (env : PeerEnv) (s : PeerTable) (r : PeerRequest) :
    (¬ r.data.Genuine env.verifier ∧ ∃ e, s.handle env r = (s, .error e)) ∨
    (r.data.Genuine env.verifier ∧ r.dials = true ∧
      ∃ reply, s.handle env r = ((s.drop r.data.publicAddress).enter r.data, .ok reply)) ∨
    (r.data.Genuine env.verifier ∧ r.dials = false ∧ r.isAnnounce = true ∧
      s.handle env r = (s.drop r.data.publicAddress, .error .dialFailed)) ∨
    (r.data.Genuine env.verifier ∧ r.dials = false ∧ r.isAnnounce = false ∧
      s.handle env r = (s, .error .dialFailed)) := by
  unfold ConnectionData.Genuine
  cases r with
  | announce cd dials =>
    simp only [PeerRequest.data, PeerRequest.dials, PeerRequest.isAnnounce, handle, announce]
    rcases hv : cd.validate env.verifier with e | _ | _ <;> cases dials <;> simp
  | discover cd dials now order =>
    simp only [PeerRequest.data, PeerRequest.dials, PeerRequest.isAnnounce, handle, discover]
    rcases hv : cd.validate env.verifier with e | _ | _ <;> cases dials <;> simp

theorem step_table (env : PeerEnv) (s : PeerTable) (r : PeerRequest) (hup : s.down = false) :
    (s.step env r).nodes = (s.handle env r).1.nodes ∧ (s.step env r).processed = (s.handle env r).1.processed := by
  rw [step, hup, if_neg (by decide)]
  split <;> simp_all

theorem follows_congr {t : PeerTable} (hn : t.nodes = s.nodes) (hp : t.processed = s.processed) :
    t.Follows ↔ s.Follows := by
  unfold Follows
  rw [hn, hp]

/-- What the new entry leaves to be shown: the entries of other addresses have the same requests as before. -/
theorem follows_enter_iff (h : s.Follows) (cd : ConnectionData) :
    ((s.drop cd.publicAddress).enter cd).Follows ↔ (cd.LatestOf s.processed ∨
      ∃ old ∈ s.processed, old.publicAddress = cd.publicAddress ∧ old.url = cd.url ∧ old.LatestOf s.processed) := by
  constructor
  · intro hf
    obtain ⟨old, hmem, ha, hu, hlatest⟩ := hf cd.publicAddress cd.url (AList.lookup_insert _)
    have hbefore : old.LatestOf s.processed := fun o ho => hlatest o (List.mem_cons_of_mem _ ho)
    rcases List.mem_cons.mp hmem with rfl | hmem
    · exact Or.inl hbefore
    · exact Or.inr ⟨old, hmem, ha, hu, hbefore⟩
  · intro hcd a url hl
    by_cases ha : a = cd.publicAddress
    · subst ha
      cases (AList.lookup_insert _).symm.trans hl
      have hself : cd ∈ cd :: s.processed := List.mem_cons_self ..
      rcases hcd with hlatest | ⟨old, hmem, hold, hu, hlatest⟩
      · exact ⟨cd, hself, rfl, rfl, List.forall_mem_cons.mpr ⟨fun _ => UInt64.le_refl _, hlatest⟩⟩
      · -- the newest of the old ones and the new one name the same URL
        rcases UInt64.le_total cd.createdAt old.createdAt with hle | hle
        · exact ⟨old, List.mem_cons_of_mem _ hmem, hold, hu, List.forall_mem_cons.mpr ⟨fun _ => hle, hlatest⟩⟩
        · refine ⟨cd, hself, rfl, rfl, List.forall_mem_cons.mpr ⟨fun _ => UInt64.le_refl _, fun o ho hoa => ?_⟩⟩
          exact UInt64.le_trans (hlatest o ho (hoa.trans hold.symm)) hle
    · have hold : s.nodes.lookup a = some url := by
        rw [← hl]
        exact ((AList.lookup_insert_ne ha).trans (AList.lookup_erase_ne ha)).symm
      obtain ⟨old, hmem, rfl, hu, hlatest⟩ := h a url hold
      exact ⟨old, List.mem_cons_of_mem _ hmem, rfl, hu,
        List.forall_mem_cons.mpr ⟨fun hcd => absurd hcd.symm ha, hlatest⟩⟩

/-- STEP: from a table that follows its newest requests, one request keeps the map when it fails and the
    table following exactly when it is timely. -/
theorem step_follows_iff (h : s.Follows) (r : PeerRequest) :
    (s.Kept env r ∧ (s.step env r).Follows) ↔ s.Timely env r := by
  cases hdown : s.down with
  | true =>
    have hstep : s.step env r = s := by rw [step, hdown, if_pos rfl]
    have hup : s.down ≠ false := by simp [hdown]
    rw [hstep]
    exact iff_of_true ⟨fun h => absurd h hup, h⟩ fun h => absurd h hup
  | false =>
    obtain ⟨hnodes, hprocessed⟩ := step_table env s r hdown
    rw [follows_congr hnodes hprocessed]
    unfold Kept Timely
    rcases handle_cases env s r with ⟨hg, e, he⟩ | ⟨hg, hd, reply, he⟩ | ⟨hg, hd, hr, he⟩ | ⟨hg, hd, hr, he⟩
    · rw [he]
      exact iff_of_true ⟨fun _ _ => rfl, h⟩ fun _ hg' => absurd hg' hg
    · rw [he, follows_enter_iff h]
      simp [hdown, hg, hd, Except.isOk, Except.toBool]
    · rw [he]
      have hkeep : (s.drop r.data.publicAddress).nodes = s.nodes ↔ r.data.publicAddress ∉ s.nodes :=
        s.nodes.erase_eq_iff _
      constructor
      · rintro ⟨hkept, -⟩ - -
        exact ⟨fun hd' => absurd hd' (by rw [hd]; decide), fun _ _ => hkeep.mp (hkept hdown rfl)⟩
      · intro ht
        have hsame := hkeep.mpr ((ht hdown hg).2 hd hr)
        exact ⟨fun _ _ => hsame, (follows_congr hsame rfl).mpr h⟩
    · rw [he]
      refine iff_of_true ⟨fun _ _ => rfl, h⟩ fun _ _ => ⟨fun hd' => absurd hd' (by rw [hd]; decide), ?_⟩
      exact fun _ hr' => absurd hr' (by rw [hr]; decide)

/-- RUN: the same for every run from such a table. -/
theorem run_follows_iff (rs : List PeerRequest) : ∀ {s : PeerTable}, s.Follows →
    (Along (step env) (fun s r => s.Kept env r ∧ (s.step env r).Follows) s rs ↔
      Along (step env) (Timely env) s rs) := by
  induction rs with
  | nil => exact fun _ => Iff.rfl
  | cons r rs ih =>
    intro s h
    constructor
    · rintro ⟨hr, hrs⟩
      exact ⟨(step_follows_iff h r).mp hr, (ih hr.2).mp hrs⟩
    · rintro ⟨hr, hrs⟩
      have hstep := (step_follows_iff h r).mpr hr
      exact ⟨hstep, (ih hstep.2).mpr hrs⟩

theorem follows_fresh : fresh.Follows := by
  intro a url h
  cases h

end PeerTable

/-- VERDICT: over a sequence of requests to a new node, every request that fails leaves the map and every entry
    is at any time the URL of the newest request of its address exactly when every request is timely. -/
theorem table_follows_newest_iff (env : PeerEnv) (rs : List PeerRequest) :
    Along (PeerTable.step env) (fun s r => s.Kept env r ∧ (s.step env r).Follows) PeerTable.fresh rs ↔
      Along (PeerTable.step env) (PeerTable.Timely env) PeerTable.fresh rs :=
  PeerTable.run_follows_iff rs PeerTable.follows_fresh

namespace Transparent

/-- The node of the samples, and the connection data that `peer` signs. -/
def peerEnv : PeerEnv := ⟨verifier, signer hub, [1]⟩

def reachable (url : Bytes) (createdAt : UInt64) : ConnectionData :=
  let signed := (signer peer).sign (initConnectionData peer url createdAt)
  ⟨peer, url, createdAt, signed.1.bytes, signed.2⟩

end Transparent

open Transparent PeerTable in
/-- BUG: the first announcement of `peer` is sent again after the second one, and the entry is the old URL; and
    a second announcement that cannot be dialled takes the first one's entry away. -/
theorem old_announcement_wins :
    let replayed := [PeerRequest.announce (reachable [65] 1) true, .discover (reachable [66] 2) true 3 [],
      .announce (reachable [65] 1) true]
    let unreachable := [PeerRequest.announce (reachable [65] 1) true]
    ((run (step peerEnv) fresh replayed).nodes.lookup peer = some [65] ∧
      ¬ (run (step peerEnv) fresh replayed).Follows) ∧
    (run (step peerEnv) fresh unreachable).nodes.lookup peer = some [65] ∧
    ((run (step peerEnv) fresh unreachable).handle peerEnv (.announce (reachable [66] 2) false)).2 =
      .error .dialFailed ∧
    ((run (step peerEnv) fresh unreachable).handle peerEnv (.announce (reachable [66] 2) false)).1.nodes.lookup peer =
      none := by
  have hlookup : (run (step peerEnv) fresh [PeerRequest.announce (reachable [65] 1) true,
      .discover (reachable [66] 2) true 3 [], .announce (reachable [65] 1) true]).nodes.lookup peer =
      some [65] := by decide +kernel
  have hlog : (run (step peerEnv) fresh [PeerRequest.announce (reachable [65] 1) true,
      .discover (reachable [66] 2) true 3 [], .announce (reachable [65] 1) true]).processed =
      [reachable [65] 1, reachable [66] 2, reachable [65] 1] := by decide +kernel
  refine ⟨⟨hlookup, fun h => ?_⟩, by decide +kernel, by decide +kernel, by decide +kernel⟩
  obtain ⟨cd, hmem, -, hurl, hlatest⟩ := h peer [65] hlookup
  rw [hlog] at hmem hlatest
  have hle := hlatest (reachable [66] 2) (by simp)
  simp only [List.mem_cons, List.not_mem_nil, or_false] at hmem
  rcases hmem with rfl | rfl | rfl
  · exact absurd (hle rfl) (by decide)
  · cases hurl
  · exact absurd (hle rfl) (by decide)

end Computantis
