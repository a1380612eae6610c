import Computantis.Laws.Acquaintance
import Mathlib.Algebra.BigOperators.Group.Finset.Basic
import Mathlib.Algebra.Order.BigOperators.Group.Finset

/-! @law waiting | name:Nodes that wait for each other | family:liveness | about:Model/Meeting

    A node that goes through its answer holds the lock of its table, and while it announces itself to another
    node it waits for that one's lock. It waits only for nodes that it has been told of. As long as nobody
    starts anew these are the ones above it on the roster, so the first of those who are not through waits for
    nobody, and everybody gets to the end. But two nodes that start anew at the same time are told of each
    other, for the genesis node still has their old entries, and each of them holds the lock that the other one
    waits for.

        peer ──Announce──▶ lock of wallet 4 ──held by──▶ wallet 4 ──Announce──▶ lock of peer ──held by──▶ peer -/

namespace Computantis

open Schemes

namespace Stage

/-- The steps that the node still has to make, counted from above. -/
def work : Stage → ℕ
  | answered j => 2 * j.rest.length + 2
  | looping j => 2 * j.rest.length + 1
  | calling _ j => 2 * j.rest.length + 2
  | _ => 0

/-- The node that is being called. -/
def callee : Stage → Option Address
  | calling n _ => some n.publicAddress
  | _ => none

theorem callee_eq_some {st : Stage} {b : Address} :
    st.callee = some b ↔ ∃ n j, st = .calling n j ∧ n.publicAddress = b := by
  cases st <;> simp [callee]

theorem locked_of_callee {st : Stage} {b : Address} (h : st.callee = some b) : st.locked = true := by
  obtain ⟨n, j, rfl, -⟩ := callee_eq_some.mp h
  rfl

end Stage

namespace Meeting

section Waiting

variable {V : Venue} {g : Address} {s : Meeting} {signed : List Address} {a b : Address} {r : PeerRequest}
  {t : Meeting} {now : UInt64} {reply : Except PeerError PeerReply}

theorem advance_stage (s : Meeting) (a : Address) (dials : Bool) (j : Joining) :
    (∀ b, b ≠ a → (s.advance V a dials j).stage b = s.stage b) ∧
      ((s.advance V a dials j).stage a).work < (Stage.looping j).work ∧
      (s.advance V a dials j).stage a ≠ .idle := by
  have hset : ∀ (t : Meeting) (st : Stage), t.stage = s.stage → st.work < (Stage.looping j).work → st ≠ .idle →
      (∀ b, b ≠ a → (t.setStage a st).stage b = s.stage b) ∧
        ((t.setStage a st).stage a).work < (Stage.looping j).work ∧ (t.setStage a st).stage a ≠ .idle := by
    intro t st ht hwork hidle
    rw [setStage_self]
    exact ⟨fun b hb => (Function.update_of_ne hb ..).trans (congrFun ht b), hwork, hidle⟩
  rw [advance]
  split
  next hrest => exact hset s _ rfl (by simp [Stage.work]) (by simp)
  next n rest hrest =>
    have hlen : j.rest.length = rest.length + 1 := by rw [hrest, List.length_cons]
    dsimp only
    split
    · exact hset s _ rfl (by simp only [Stage.work, hlen]; omega) (by simp)
    · split
      · exact hset _ _ rfl (by simp [Stage.work]) (by simp)
      · split
        · exact hset _ _ rfl (by simp [Stage.work]) (by simp)
        split
        · exact hset s _ rfl (by simp only [Stage.work, hlen]; omega) (by simp)
        · split
          · exact hset _ _ rfl (by simp only [Stage.work, hlen]; omega) (by simp)
          · exact hset _ _ rfl (by simp only [Stage.work, hlen]; omega) (by simp)

/-- STEP: a node that has begun and is not kept waiting has a step that brings it nearer to the end. -/
theorem exists_step (hV : V.Honest g) (h : Orderly V g signed s) (ha : a ∈ V.members) (hbusy : (s.stage a).work ≠ 0)
    (hfree : ∀ n j, s.stage a = .calling n j → (s.stage n.publicAddress).locked = false) :
    ∃ e : Event, (e.Smooth g ∧ ∀ b, e ≠ .restart b) ∧ (∀ b, b ≠ a → (s.step V e).stage b = s.stage b) ∧
      ((s.step V e).stage a).work < (s.stage a).work ∧ (s.step V e).stage a ≠ .idle := by
  cases hst : s.stage a with
  | idle => simp [hst, Stage.work] at hbusy
  | joined => simp [hst, Stage.work] at hbusy
  | failed => simp [hst, Stage.work] at hbusy
  | answered j =>
    have hstep : s.step V (.lock a) = s.setStage a (.looping j) := by
      rw [step, Event.node, if_pos ha, act, hst]
    refine ⟨.lock a, ⟨trivial, by simp⟩, ?_⟩
    rw [hstep, setStage_self]
    exact ⟨fun b hb => Function.update_of_ne hb .., by simp only [Stage.work]; omega, by simp⟩
  | looping j =>
    have hstep : s.step V (.advance a true) = s.advance V a true j := by
      rw [step, Event.node, if_pos ha, act, hst]
    refine ⟨.advance a true, ⟨rfl, by simp⟩, ?_⟩
    rw [hstep]
    exact advance_stage s a true j
  | calling n j =>
    obtain ⟨hmem, hhost, now, hown⟩ := h.upright.contact hV ha hst
    obtain ⟨t, hcall, -⟩ := call_own (r := .announce j.own true) hV h ha hmem hown rfl (hfree n j hst)
    have hstep : s.step V (.announce a true) = (s.setTable n.publicAddress t).setStage a (.looping j) := by
      rw [step, Event.node, if_pos ha, act, hst]
      simp only [announce, hhost, hcall]
    refine ⟨.announce a true, ⟨rfl, by simp⟩, ?_⟩
    rw [hstep, setStage_self]
    exact ⟨fun b hb => Function.update_of_ne hb .., by simp only [Stage.work]; omega, by simp⟩

theorem exists_progress (hV : V.Honest g) (h : Orderly V g signed s) (htidy : Tidy V g signed s) (ha : a ∈ V.members)
    (hbusy : (s.stage a).work ≠ 0) :
    ∃ c ∈ V.members, ∃ e : Event, (e.Smooth g ∧ ∀ b, e ≠ .restart b) ∧
      (∀ b, b ≠ c → (s.step V e).stage b = s.stage b) ∧
      ((s.step V e).stage c).work < (s.stage c).work ∧ (s.step V e).stage c ≠ .idle := by
  have hsigned : ∀ b ∈ V.members, (s.stage b).work ≠ 0 → b ∈ signed := by
    intro b hb hwork
    rcases eq_or_ne b g with rfl | hbg
    · exact h.top
    · rw [h.begun b hb hbg]
      rintro hidle
      simp [hidle, Stage.work] at hwork
  -- a call goes to somebody above
  have hwaits : ∀ x b, (b ∈ V.members ∧ (s.stage b).work ≠ 0) →
      (∃ n j, s.stage b = .calling n j ∧ n.publicAddress = x) → Above signed x b := by
    rintro _ b ⟨hb, -⟩ ⟨n, j, hst, rfl⟩
    have hpending : n ∈ (s.stage b).pending := by rw [hst]; exact List.mem_cons_self ..
    exact (htidy.upward b hb n hpending).resolve_left (h.called b hb n j hst).2.1
  obtain ⟨c, ⟨hc, hwork⟩, hfree⟩ := exists_unblocked h.linked.nodup hwaits (hsigned a ha hbusy) ⟨ha, hbusy⟩
  refine ⟨c, hc, exists_step hV h hc hwork fun n j hst => ?_⟩
  have hmem := (h.upright.contact hV hc hst).1
  have hdone : (s.stage n.publicAddress).work = 0 := by
    by_contra hne
    exact hfree _ ⟨n, j, hst, rfl⟩ ⟨hmem, hne⟩
  cases hlocked : s.stage n.publicAddress with
  | looping i => simp [hlocked, Stage.work] at hdone
  | calling m i => simp [hlocked, Stage.work] at hdone
  | _ => rfl

/-- The steps that all members still have to make. -/
def totalWork (V : Venue) (s : Meeting) : ℕ := ∑ a ∈ V.members, (s.stage a).work

/-- RUN: everybody who has begun can be brought to the end. -/
theorem exists_completion (hV : V.Honest g) (n : ℕ) : ∀ {s : Meeting}, totalWork V s = n →
    (∃ signed, Orderly V g signed s ∧ Tidy V g signed s) →
    ∃ fs : List Event, (∀ e ∈ fs, e.Smooth g ∧ ∀ b, e ≠ .restart b) ∧
      ∀ a ∈ V.members, (run (step V) s fs).stage a = if s.stage a = .idle then .idle else .joined := by
  induction n using Nat.strong_induction_on with
  | _ n ih =>
    intro s hn hI
    obtain ⟨signed, h, htidy⟩ := hI
    by_cases hwork : ∃ a ∈ V.members, (s.stage a).work ≠ 0
    · obtain ⟨a, ha, hbusy⟩ := hwork
      obtain ⟨c, hc, e, ⟨he, hrestart⟩, hothers, hless, hidle⟩ := exists_progress hV h htidy ha hbusy
      have htotal : totalWork V (s.step V e) < n := by
        rw [← hn]
        refine Finset.sum_lt_sum (fun b _ => ?_) ⟨c, hc, hless⟩
        rcases eq_or_ne b c with rfl | hbc
        · exact hless.le
        · rw [hothers b hbc]
      obtain ⟨fs, hfs, hend⟩ := ih _ htotal rfl (tidy_step hV he hrestart ⟨signed, h, htidy⟩)
      refine ⟨e :: fs, List.forall_mem_cons.mpr ⟨⟨he, hrestart⟩, hfs⟩, fun b hb => ?_⟩
      rw [run_cons, hend b hb]
      rcases eq_or_ne b c with rfl | hbc
      · have hbegun : s.stage b ≠ .idle := by
          intro hst
          simp [hst, Stage.work] at hless
        rw [if_neg hidle, if_neg hbegun]
      · rw [hothers b hbc]
    · push Not at hwork
      refine ⟨[], by simp, fun a ha => ?_⟩
      have hdone := hwork a ha
      have hfailed := h.failed a ha
      rw [run_nil]
      cases hst : s.stage a <;> simp_all [Stage.work]

theorem call_stage (h : s.call V b r = some (t, reply)) : t.stage = s.stage := by
  rw [call] at h
  split at h
  · cases h; rfl
  · split at h
    · cases h
    · cases h; rfl

theorem setStage_of_ne (hb : b ≠ a) (st : Stage) : (s.setStage a st).stage b = s.stage b :=
  Function.update_of_ne hb ..

theorem step_stage_of_ne {e : Event} (hb : b ≠ e.node) : (s.step V e).stage b = s.stage b := by
  rw [step]
  split
  · cases e with
    | discover a dials back now later order =>
      rw [act]
      split
      · rw [discover]
        split
        · exact setStage_of_ne hb _
        · split
          · exact setStage_of_ne hb _
          · split
            · exact setStage_of_ne hb _
            · split
              · rfl
              next hcall => exact (setStage_of_ne hb _).trans (congrFun (call_stage hcall) b)
              next hcall => exact (setStage_of_ne hb _).trans (congrFun (call_stage hcall) b)
      · rfl
    | lock a =>
      rw [act]
      split
      · exact setStage_of_ne hb _
      · rfl
    | advance a dials =>
      rw [act]
      split
      next j _ => exact (advance_stage s a dials j).1 b hb
      next => rfl
    | announce a back =>
      rw [act]
      split
      · rw [announce]
        split
        · exact setStage_of_ne hb _
        · split
          · rfl
          next hcall => exact (setStage_of_ne hb _).trans (congrFun (call_stage hcall) b)
      · rfl
    | restart a => exact setStage_of_ne hb _
  · rfl

/-! ### Whatever fails -/

theorem Upright.up (h : Upright V g s) (ha : a ∈ V.members) (hst : s.stage a ≠ .failed) :
    (s.table a).down = false := by
  cases hdown : (s.table a).down with
  | false => rfl
  | true => exact absurd (h.down a ha hdown) hst

/-- STEP (one node): its table has old entries and those of members, and what it goes through is genuine. -/
theorem Upright.set (h : Upright V g s) {t : PeerTable} {st : Stage}
    (hentries : ∀ z u, t.nodes.lookup z = some u → (s.table a).nodes.lookup z = some u ∨
      z ∈ V.members ∧ u = (V.peer z).url) (hdown : t.down = true → st = .failed)
    (hsound : ∀ c ∈ st.pending, c.Sound V g) (hown : ∀ j, st.joining = some j → ∃ now, j.own = Meeting.own V a now) :
    Upright V g ((s.setTable a t).setStage a st) := by
  have hself : ((s.setTable a t).setStage a st).stage a = st := setStage_self ..
  have htable : ((s.setTable a t).setStage a st).table a = t := setTable_self ..
  have hstages : ∀ b, b ≠ a → ((s.setTable a t).setStage a st).stage b = s.stage b := fun b hb => setStage_of_ne hb _
  have htables : ∀ b, b ≠ a → ((s.setTable a t).setStage a st).table b = s.table b := fun b hb =>
    Function.update_of_ne hb ..
  refine ⟨fun b hb hd => ?_, fun b hb x u hu => ?_, fun b hb c hc => ?_, fun b hb j hj => ?_⟩ <;>
    rcases eq_or_ne b a with rfl | hba
  · rw [htable] at hd
    exact hself.trans (hdown hd)
  · rw [htables b hba] at hd
    exact (hstages b hba).trans (h.down b hb hd)
  · rw [htable] at hu
    exact (hentries x u hu).elim (h.entries b hb x u) id
  · rw [htables b hba] at hu
    exact h.entries b hb x u hu
  · rw [hself] at hc
    exact hsound c hc
  · rw [hstages b hba] at hc
    exact h.sound b hb c hc
  · rw [hself] at hj
    exact hown j hj
  · rw [hstages b hba] at hj
    exact h.own b hb j hj

theorem setTable_same (s : Meeting) (a : Address) : s.setTable a (s.table a) = s := by
  rw [setTable, Function.update_eq_self]

theorem Upright.moves (h : Upright V g s) (ha : a ∈ V.members) {st : Stage} (hup : s.stage a ≠ .failed)
    (hsub : st.pending ⊆ (s.stage a).pending)
    (hjoin : ∀ j, st.joining = some j → ∃ i, (s.stage a).joining = some i ∧ j.own = i.own) :
    Upright V g (s.setStage a st) := by
  rw [← setTable_same s a]
  refine h.set (fun z u hu => Or.inl hu) (fun hdown => ?_) (fun c hc => h.sound a ha c (hsub hc)) fun j hj => ?_
  · rw [h.up ha hup] at hdown
    cases hdown
  · obtain ⟨i, hi, heq⟩ := hjoin j hj
    exact heq ▸ h.own a ha i hi

theorem Upright.fail (h : Upright V g s) (a : Address) : Upright V g (s.fail a) :=
  h.set (fun _ _ hu => Or.inl hu) (fun _ => rfl) (by simp [Stage.pending]) (by simp [Stage.joining])

theorem table_step (hV : V.Honest g) (ha : a ∈ V.members) (hb : b ∈ V.members) (hr : r.data = Meeting.own V a now)
    {t : PeerTable} (hup : t.down = false) :
    (t.step (V.peer b) r).down = false ∧ ∀ z u, (t.step (V.peer b) r).nodes.lookup z = some u →
      t.nodes.lookup z = some u ∨ z ∈ V.members ∧ u = (V.peer z).url := by
  have hgen : r.data.Genuine (V.peer b).verifier := hr ▸ own_genuine hV ha hb now
  have haddr : r.data.publicAddress = a := hr ▸ hV.address a ha
  have hurl : r.data.url = (V.peer a).url := hr ▸ rfl
  have hdropped : ∀ z u, (t.nodes.erase a).lookup z = some u → t.nodes.lookup z = some u := by
    intro z u hu
    rcases eq_or_ne z a with rfl | hza
    · rw [AList.lookup_erase] at hu
      cases hu
    · rwa [AList.lookup_erase_ne hza] at hu
  rw [PeerTable.step, hup, if_neg (by decide)]
  rcases PeerTable.handle_cases (V.peer b) t r with
    ⟨hng, -⟩ | ⟨-, -, reply, hok⟩ | ⟨-, -, -, hfailed⟩ | ⟨-, -, -, hfailed⟩
  · exact absurd hgen hng
  · rw [hok]
    refine ⟨hup, fun z u hu => ?_⟩
    simp only [PeerTable.enter, PeerTable.drop, haddr, hurl] at hu
    rcases eq_or_ne z a with rfl | hza
    · rw [AList.lookup_insert] at hu
      exact Or.inr ⟨ha, (Option.some_inj.mp hu).symm⟩
    · rw [AList.lookup_insert_ne hza] at hu
      exact Or.inl (hdropped z u hu)
  · rw [hfailed, haddr]
    exact ⟨hup, fun z u hu => Or.inl (hdropped z u hu)⟩
  · rw [hfailed]
    exact ⟨hup, fun z u hu => Or.inl hu⟩

theorem Upright.call (hV : V.Honest g) (h : Upright V g s) (ha : a ∈ V.members) (hb : b ∈ V.members)
    (hr : r.data = Meeting.own V a now) (hcall : s.call V b r = some (t, reply)) : Upright V g t := by
  rw [Meeting.call] at hcall
  split at hcall
  · cases hcall
    exact h
  next hup =>
    split at hcall
    · cases hcall
    · cases hcall
      obtain ⟨hdown, hentries⟩ := table_step hV ha hb hr (Bool.eq_false_iff.mpr hup)
      have hsame : s.setTable b ((s.table b).step (V.peer b) r) =
          (s.setTable b ((s.table b).step (V.peer b) r)).setStage b (s.stage b) := by
        rw [setStage, setTable, Function.update_eq_self]
      rw [hsame]
      refine h.set hentries (fun hd => ?_) (h.sound b hb) (h.own b hb)
      rw [hdown] at hd
      cases hd

theorem Upright.answer (hV : V.Honest g) (h : Upright V g s) (ha : a ∈ V.members) {back : Bool} {later : UInt64}
    {order : List Address} {signer : Address} {conns : List ConnectionData}
    (hcall : s.call V g (.discover (Meeting.own V a now) back later order) =
      some (t, .ok (.connectedNodes signer conns))) : ∀ c ∈ conns, c.Sound V g := by
  have ht := h.call hV ha hV.genesis_mem (r := .discover (Meeting.own V a now) back later order) rfl hcall
  rw [Meeting.call] at hcall
  split at hcall
  · cases hcall
  next hup =>
    split at hcall
    · cases hcall
    · simp only [Option.some.injEq, Prod.mk.injEq] at hcall
      obtain ⟨rfl, hreply⟩ := hcall
      have hgen := own_genuine hV ha hV.genesis_mem now
      rw [ConnectionData.Genuine] at hgen
      rw [PeerTable.handle, PeerTable.discover, hgen] at hreply
      cases back with
      | false => cases hreply
      | true =>
        have htable := ht.entries g hV.genesis_mem
        rw [setTable_self, PeerTable.step, if_neg hup, PeerTable.handle, PeerTable.discover, hgen] at htable
        simp only [if_true, PeerTable.connectedNodes, hV.address g hV.genesis_mem] at hreply htable
        cases hreply
        exact fun c hc => ((answer_sound hV htable later order).1 c hc).1

theorem Upright.discover (hV : V.Honest g) (h : Upright V g s) (ha : a ∈ V.members) (hidle : s.stage a = .idle)
    (dials back : Bool) (now later : UInt64) (order : List Address) :
    Upright V g (s.discover V a dials back now later order) := by
  rw [Meeting.discover]
  split
  · exact h.moves ha (by simp [hidle]) (by simp [Stage.pending]) (by simp [Stage.joining])
  next hurl =>
    have hag : a ≠ g := fun heq => hurl (heq ▸ hV.genesis)
    rw [hV.joins a ha hag, hV.host g hV.genesis_mem]
    split
    · exact h.fail a
    · simp only
      split
      · exact h
      next t signer conns hcall =>
        have ht := h.call hV ha hV.genesis_mem rfl hcall
        have hup : (t.table a).down = false := ht.up ha (by rw [call_stage hcall, hidle]; simp)
        rw [← setTable_same t a]
        refine ht.set (fun _ _ hu => Or.inl hu) (fun hd => ?_) (h.answer hV ha hcall) fun j hj => ?_
        · rw [hup] at hd
          cases hd
        · cases hj
          exact ⟨now, rfl⟩
      next t _ _ hcall => exact (h.call hV ha hV.genesis_mem rfl hcall).fail a

theorem Upright.advance (h : Upright V g s) (ha : a ∈ V.members) {j : Joining} (hst : s.stage a = .looping j)
    (dials : Bool) : Upright V g (s.advance V a dials j) := by
  have hup : s.stage a ≠ .failed := by simp [hst]
  have hjoin : (s.stage a).joining = some j := by rw [hst]; rfl
  have hpending : (s.stage a).pending = j.rest := by rw [hst]; rfl
  rw [Meeting.advance]
  split
  · exact h.moves ha hup (by simp [Stage.pending]) (by simp [Stage.joining])
  next n rest hrest =>
    have hn : n ∈ (s.stage a).pending := by rw [hpending, hrest]; exact List.mem_cons_self ..
    have hsub : rest ⊆ (s.stage a).pending := by rw [hpending, hrest]; exact List.subset_cons_self ..
    have hnext : ∀ i, some { j with rest } = some i → ∃ i', (s.stage a).joining = some i' ∧ i.own = i'.own := by
      rintro _ ⟨⟩
      exact ⟨j, hjoin, rfl⟩
    have hskip : Upright V g (s.setStage a (.looping { j with rest })) := h.moves ha hup hsub hnext
    -- the entry that is made is the one that was told
    have henter : ∀ st : Stage, st.pending ⊆ (s.stage a).pending →
        (∀ i, st.joining = some i → ∃ i', (s.stage a).joining = some i' ∧ i.own = i'.own) →
        Upright V g ((s.setTable a
          { s.table a with nodes := (s.table a).nodes.insert n.publicAddress n.url }).setStage a st) := by
      intro st hst hown
      obtain ⟨hmem, hconn⟩ := h.sound a ha n hn
      have hurl : n.url = (V.peer n.publicAddress).url := by rw [hconn]; rfl
      refine h.set (fun z u hu => ?_) (fun hd => ?_) (fun c hc => h.sound a ha c (hst hc)) fun i hi => ?_
      · rcases eq_or_ne z n.publicAddress with rfl | hz
        · rw [AList.lookup_insert] at hu
          exact Or.inr ⟨hmem, (Option.some_inj.mp hu).symm.trans hurl⟩
        · rw [AList.lookup_insert_ne hz] at hu
          exact Or.inl hu
      · exact absurd (h.down a ha hd) hup
      · obtain ⟨i', hi', heq⟩ := hown i hi
        exact heq ▸ h.own a ha i' hi'
    dsimp only
    split
    · exact hskip
    · split
      · exact h.fail a
      · split
        · exact h.fail a
        · split
          · exact hskip
          · split
            · exact henter _ hsub hnext
            · refine henter _ ?_ hnext
              rw [hpending, hrest]
              exact List.Subset.refl _

theorem Upright.announce (hV : V.Honest g) (h : Upright V g s) (ha : a ∈ V.members) {n : ConnectionData} {j : Joining}
    (hst : s.stage a = .calling n j) (back : Bool) :
    Upright V g (s.announce V a back n j) := by
  obtain ⟨hmem, hhost, now, hown⟩ := h.contact hV ha hst
  rw [Meeting.announce, hhost]
  simp only
  split
  · exact h
  next t _ hcall =>
    have hstage : t.stage a = .calling n j := (congrFun (call_stage hcall) a).trans hst
    refine (h.call hV ha hmem (r := .announce j.own back) hown hcall).moves ha (by simp [hstage]) ?_ ?_
    · rw [hstage]
      exact List.subset_cons_self ..
    · rintro _ ⟨⟩
      exact ⟨j, by rw [hstage]; rfl, rfl⟩

theorem Upright.step (hV : V.Honest g) (h : Upright V g s) (e : Event) : Upright V g (s.step V e) := by
  rw [Meeting.step]
  split
  next hmem =>
    cases e with
    | discover a dials back now later order =>
      rw [act]
      split
      next hidle => exact h.discover hV hmem hidle dials back now later order
      next => exact h
    | lock a =>
      rw [act]
      split
      next j hst =>
        have ha : a ∈ V.members := hmem
        refine h.moves ha (by simp [hst]) ?_ ?_
        · rw [hst]
          exact List.Subset.refl _
        · rintro _ ⟨⟩
          exact ⟨j, by rw [hst]; rfl, rfl⟩
      next => exact h
    | advance a dials =>
      rw [act]
      split
      next j hst => exact h.advance hmem hst dials
      next => exact h
    | announce a back =>
      rw [act]
      split
      next n j hst => exact h.announce hV hmem hst back
      next => exact h
    | restart a =>
      refine h.set (fun z u hu => ?_) (fun hd => ?_) (by simp [Stage.pending]) (by simp [Stage.joining])
      · simp [PeerTable.fresh] at hu
      · cases hd
  next => exact h

theorem upright_opened : Upright V g opened where
  down a _ hdown := by cases hdown
  entries a _ b u hu := by simp [opened, PeerTable.fresh] at hu
  sound a _ c hc := absurd hc List.not_mem_nil
  own a _ j hj := by cases hj

theorem callee_stays (hV : V.Honest g) (h : Upright V g s) (ha : a ∈ V.members)
    (hcallee : (s.stage a).callee = some b) (hlocked : (s.stage b).locked = true) {e : Event}
    (hrestart : e ≠ .restart a) : ((s.step V e).stage a).callee = some b := by
  obtain ⟨n, j, hst, rfl⟩ := Stage.callee_eq_some.mp hcallee
  suffices hsame : (s.step V e).stage a = s.stage a by rw [hsame, hcallee]
  by_cases hne : a = e.node
  · cases e with
    | restart b =>
      obtain rfl : a = b := hne
      exact absurd rfl hrestart
    | announce b back =>
      obtain rfl : a = b := hne
      obtain ⟨hmem, hhost, now, hown⟩ := h.contact hV ha hst
      have hup : (s.table n.publicAddress).down = false := by
        refine h.up hmem fun hfailed => ?_
        rw [hfailed] at hlocked
        cases hlocked
      have hwait := call_waits hV ha hmem hown hup hlocked back
      rw [Meeting.step, Event.node, if_pos ha, act, hst]
      simp only [Meeting.announce, hhost, hwait]
      exact hst
    | discover b =>
      obtain rfl : a = b := hne
      rw [Meeting.step, Event.node, if_pos ha, act, hst, if_neg (by simp), hst]
    | lock b =>
      obtain rfl : a = b := hne
      rw [Meeting.step, Event.node, if_pos ha, act]
      simp only [hst]
    | advance b =>
      obtain rfl : a = b := hne
      rw [Meeting.step, Event.node, if_pos ha, act]
      simp only [hst]
  · exact step_stage_of_ne hne

end Waiting

end Meeting

open Meeting in
/-- VERDICT (no deadlock): as long as every dial succeeds and no node starts anew, every state that joining nodes
    reach can go on to one in which all who have begun are through, and those who have not are as they were. -/
theorem joins_never_deadlock {V : Venue} {g : Address} (hV : V.Honest g) {es : List Meeting.Event}
    (hes : ∀ e ∈ es, e.Smooth g ∧ ∀ a, e ≠ .restart a) :
    let s := run (Meeting.step V) opened es
    ∃ fs : List Meeting.Event, (∀ e ∈ fs, e.Smooth g ∧ ∀ a, e ≠ .restart a) ∧
      ∀ a ∈ V.members, (run (Meeting.step V) s fs).stage a = if s.stage a = .idle then .idle else .joined := by
  intro s
  refine exists_completion hV _ rfl ?_
  refine run_invariant_along (P := fun (_ : Meeting) (e : Meeting.Event) => e.Smooth g ∧ ∀ a, e ≠ .restart a)
    (I := fun (t : Meeting) => ∃ signed, Orderly V g signed t ∧ Tidy V g signed t) ?_ (along_of_forall hes _)
    ⟨[g], orderly_opened hV⟩
  exact fun t e he h => tidy_step hV he.1 he.2 h

open Transparent in
/-- The law while one node waits for the other one's lock. -/
theorem waiting_node_joins :
    let s := run (Meeting.step square) Meeting.opened oneWaits
    (s.stage (wallet 4)).callee = some peer ∧ (s.stage peer).locked = true ∧
    ∃ fs : List Meeting.Event, (∀ e ∈ fs, e.Smooth hub ∧ ∀ a, e ≠ .restart a) ∧
      (run (Meeting.step square) s fs).stage peer = .joined ∧
      (run (Meeting.step square) s fs).stage (wallet 4) = .joined := by
  intro s
  have hes : ∀ e ∈ oneWaits, e.Smooth hub ∧ ∀ a, e ≠ .restart a := by
    simp [oneWaits, bothAsked, loops, Meeting.Event.Smooth]
  obtain ⟨fs, hfs, hend⟩ := joins_never_deadlock honest_square hes
  have hpeer : (run (Meeting.step square) Meeting.opened oneWaits).stage peer ≠ .idle := by decide +kernel
  have hlate : (run (Meeting.step square) Meeting.opened oneWaits).stage (wallet 4) ≠ .idle := by decide +kernel
  refine ⟨by decide +kernel, by decide +kernel, fs, hfs, ?_, ?_⟩
  · rw [hend peer (by decide), if_neg hpeer]
  · rw [hend (wallet 4) (by decide), if_neg hlate]

open Meeting in
/-- BUG: two nodes that announce themselves to each other wait forever, whatever dials fail and whatever all others
    do, until one of them starts anew. It takes two nodes that have started anew at the same time: each of them is
    told of the other. -/
theorem crossed_calls_never_end {V : Venue} {g : Address} (hV : V.Honest g) (es : List Meeting.Event)
    {a b : Address} (ha : a ∈ V.members) (hb : b ∈ V.members)
    (hab : ((run (Meeting.step V) opened es).stage a).callee = some b)
    (hba : ((run (Meeting.step V) opened es).stage b).callee = some a) {fs : List Meeting.Event}
    (hfs : ∀ e ∈ fs, e ≠ .restart a ∧ e ≠ .restart b) :
    ((run (Meeting.step V) opened (es ++ fs)).stage a).callee = some b ∧
      ((run (Meeting.step V) opened (es ++ fs)).stage b).callee = some a := by
  have hupright : Upright V g (run (Meeting.step V) opened es) :=
    run_invariant (fun _ e h => h.step hV e) es upright_opened
  rw [run_append]
  refine (run_invariant_along (P := fun (_ : Meeting) (e : Meeting.Event) => e ≠ .restart a ∧ e ≠ .restart b)
    (I := fun (t : Meeting) => Upright V g t ∧ (t.stage a).callee = some b ∧ (t.stage b).callee = some a)
    ?_ (along_of_forall hfs _) ⟨hupright, hab, hba⟩).2
  rintro t e ⟨hra, hrb⟩ ⟨h, hta, htb⟩
  refine ⟨h.step hV e, ?_, ?_⟩
  · exact callee_stays hV h ha hta (Stage.locked_of_callee htb) hra
  · exact callee_stays hV h hb htb (Stage.locked_of_callee hta) hrb

open Transparent in
/-- The law at two nodes that have joined, and start anew at the same time. -/
theorem restarted_nodes_wait :
    (run (Meeting.step square) Meeting.opened bothJoined).stage peer = .joined ∧
    (run (Meeting.step square) Meeting.opened bothJoined).stage (wallet 4) = .joined ∧
    ∀ fs : List Meeting.Event, (∀ e ∈ fs, e ≠ .restart peer ∧ e ≠ .restart (wallet 4)) →
      ((run (Meeting.step square) Meeting.opened (bothAgain ++ fs)).stage peer).callee = some (wallet 4) ∧
      ((run (Meeting.step square) Meeting.opened (bothAgain ++ fs)).stage (wallet 4)).callee = some peer := by
  refine ⟨by decide +kernel, by decide +kernel, fun fs hfs => ?_⟩
  exact crossed_calls_never_end honest_square bothAgain (by decide) (by decide)
    (by decide +kernel) (by decide +kernel) hfs

end Computantis
