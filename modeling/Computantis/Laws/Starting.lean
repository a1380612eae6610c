import Computantis.Laws.Retry
import Computantis.Model.Startup

/-! @law starting | name:When start-up may report success | family:concurrency | about:Model/Startup

    `updateDag` returns nil at the end of the stream and after any plain cancellation. At the end of the stream
    `LoadDag` may not have taken its first vertex, and what it does later is not waited for. A failure of
    `LoadDag` reaches the loop only as a cancellation, whose cause nobody reads.

        updateDag:  … EOF ─▶ nil ─▶ cancel ─▶ close ─────────────▶ return nil
        LoadDag:                                 └▶ … ─▶ cancelF(err)

    A nil result means a loaded book when nothing of the stream is left, `LoadDag` has ended before the return,
    and the stream is one that the book can load. -/

namespace Computantis

open Schemes

/-! ### The first loop in pieces -/

theorem Book.loadVertices_append {saveFails : Hash → Bool} (st : List (Option Vertex)) (vs : List Vertex) :
    ∀ {b b' : Book}, b.loadVertices saveFails (vs.map some) = (b', none) →
      b.loadVertices saveFails (vs.map some ++ st) = b'.loadVertices saveFails st := by
  induction vs with
  | nil =>
    rintro b b' ⟨⟩
    rfl
  | cons v vs ih =>
    intro b b' h
    rw [List.map_cons, Book.loadVertices] at h
    rw [List.map_cons, List.cons_append, Book.loadVertices]
    split at h
    · cases h
    · split at h
      · cases h
      · exact ih h

theorem Book.loadVertices_stuck {saveFails : Hash → Bool} (st : List (Option Vertex)) {vs : List Vertex} {v : Vertex}
    {b b' : Book} (h : b.loadVertices saveFails (vs.map some) = (b', none))
    (hv : (b'.loadVertices saveFails [some v]).2 ≠ none) :
    (b.loadVertices saveFails (vs.map some ++ some v :: st)).2 ≠ none := by
  rw [Book.loadVertices_append _ _ h, Book.loadVertices]
  rw [Book.loadVertices] at hv
  split at hv
  · exact hv
  · split at hv
    · exact hv
    · exact absurd rfl hv

/-- The load of a stream whose vertices have been read goes on from the book that they were read into. -/
theorem Book.loadDag_of_read {sched : LoadSchedule} {vs : List Vertex} {b b' : Book} (hb : b.dagLoaded = false)
    (h : b.loadVertices sched.saveFails (vs.map some) = (b', none)) :
    b.loadDag sched (vs.map some) =
      ({ (b'.loadLocked sched []).1.updateWeightAndThroughput initialThroughput with
        throughput := initialThroughput }, (b'.loadLocked sched []).2) := by
  have hlocked : b.loadLocked sched (vs.map some) = b'.loadLocked sched [] := by
    rw [Book.loadLocked, h, Book.loadLocked, Book.loadVertices]
  rw [Book.loadDag, hb, if_neg (by decide), hlocked]

theorem Book.loadDag_stuck {sched : LoadSchedule} {st : List (Option Vertex)} {b : Book}
    (h : (b.loadVertices sched.saveFails st).2 ≠ none) : (b.loadDag sched st).2 ≠ none := by
  rw [Book.loadDag]
  split
  · simp
  · cases hl : b.loadVertices sched.saveFails st with
    | mk b' cause =>
      cases cause with
      | none => exact absurd (by rw [hl]) h
      | some e => simp [Book.loadLocked, hl]

/-! ### The two processes -/

/-- The vertex that the loop is about to send. -/
def Receiver.holding : Receiver → List Vertex
  | .send vrx => [vrx]
  | _ => []

/-- The channel has been closed. -/
def Receiver.past : Receiver → Bool
  | .closed _ => true
  | .returned _ => true
  | _ => false

/-- What `LoadDag` has made of the vertices `taken` from the channel. -/
def LoadedSoFar (b : Book) (sched : LoadSchedule) (taken : List Vertex) (s : Startup) : Loader → Prop
  | .absent => ∃ e, s.receiver = .returned (some e)
  | .started => taken = [] ∧ s.book = b
  | .ranging => b.dagLoaded = false ∧ b.loadVertices sched.saveFails (taken.map some) = (s.book, none)
  | .returned none => s.chVrx = [] ∧ s.chClosed = true ∧ b.loadDag sched (taken.map some) = (s.book, none)
  | .returned (some _) => (∀ more, (b.loadDag sched (taken.map some ++ more)).2 ≠ none) ∨
      (s.chVrx = [] ∧ s.chClosed = true ∧ (b.loadDag sched (taken.map some)).2 ≠ none)

/-- INVARIANT: what was received is what `LoadDag` has taken, what the channel holds and what the loop is about
    to send, in this order; and the channel is closed behind the loop. -/
structure Joined (b : Book) (sched : LoadSchedule) (served : List ProtoVertex) (taken : List Vertex)
    (s : Startup) : Prop where
  stream : s.receiver ≠ .crashed → ∃ received, served = received ++ s.pending ∧
    received.map mapProtoVertexToAccountantVertex = (taken ++ s.chVrx ++ s.receiver.holding).map .ok
  closed : s.chClosed = true → s.receiver.past = true
  loader : LoadedSoFar b sched taken s s.loader

section Steps

variable {b : Book} {sched : LoadSchedule} {served : List ProtoVertex} {taken : List Vertex} {s s' : Startup}

theorem LoadedSoFar.frame (h : LoadedSoFar b sched taken s s.loader)
    (hreceiver : ∀ e, s.receiver = .returned (some e) → s'.receiver = .returned (some e))
    (hch : s'.chVrx = s.chVrx) (hclosed : s.chClosed = true → s'.chClosed = true) (hbook : s'.book = s.book) :
    LoadedSoFar b sched taken s' s.loader := by
  rcases hl : s.loader with _ | _ | _ | _ | cause
  all_goals simp only [hl, LoadedSoFar, hch, hbook] at h ⊢
  case absent =>
    obtain ⟨e, he⟩ := h
    exact ⟨e, hreceiver e he⟩
  case started => exact h
  case ranging => exact h
  case returned.none => exact ⟨h.1, hclosed h.2.1, h.2.2⟩
  case returned.some => exact h.imp_right fun h => ⟨h.1, hclosed h.2.1, h.2.2⟩

theorem LoadedSoFar.push (h : LoadedSoFar b sched taken s s.loader) (hopen : s.chClosed = false)
    (hreceiver : ∀ e, s.receiver ≠ .returned (some e)) (hbook : s'.book = s.book) :
    LoadedSoFar b sched taken s' s.loader := by
  rcases hl : s.loader with _ | _ | _ | _ | cause
  all_goals simp only [hl, LoadedSoFar, hopen, hbook] at h ⊢
  case absent =>
    obtain ⟨e, he⟩ := h
    exact absurd he (hreceiver e)
  case started => exact h
  case ranging => exact h
  case returned.none => exact absurd h.2.1 (by decide)
  case returned.some =>
    rcases h with h | ⟨-, h, -⟩
    · exact Or.inl h
    · exact absurd h (by decide)

theorem Joined.stream_at {r : Receiver} (h : Joined b sched served taken s) (hr : s.receiver = r) (hne : r ≠ .crashed) :
    ∃ received, served = received ++ s.pending ∧
      received.map mapProtoVertexToAccountantVertex = (taken ++ s.chVrx ++ r.holding).map .ok := by
  subst hr
  exact h.stream hne

theorem Joined.still_open {r : Receiver} (h : Joined b sched served taken s) (hr : s.receiver = r)
    (hpast : r.past = false) : ¬ s.chClosed = true := by
  subst hr
  intro hc
  rw [h.closed hc] at hpast
  cases hpast

theorem Joined.receive (h : Joined b sched served taken s) (broken : Bool) :
    Joined b sched served taken (s.receive broken) := by
  unfold Startup.receive
  split
  next hr =>
    have hstream := h.stream_at hr nofun
    have hopen := h.still_open hr rfl
    -- every way out of the look at the context changes the place alone
    split <;> exact ⟨fun _ => hstream, fun hc => absurd hc hopen, h.loader.frame (by simp [hr]) rfl id rfl⟩
  next hr =>
    obtain ⟨received, hserved, hmap⟩ := h.stream_at hr nofun
    have hopen := h.still_open hr rfl
    split
    · exact ⟨fun _ => ⟨received, hserved, hmap⟩, fun hc => absurd hc hopen, h.loader.frame (by simp [hr]) rfl id rfl⟩
    split
    next hp =>
      exact ⟨fun _ => ⟨received, hserved, hmap⟩, fun hc => absurd hc hopen, h.loader.frame (by simp [hr]) rfl id rfl⟩
    next vg pending hp =>
      split
      next => exact ⟨fun hc => absurd rfl hc, fun hc => absurd hc hopen, h.loader.frame (by simp [hr]) rfl id rfl⟩
      next vrx hvrx =>
        refine ⟨fun _ => ⟨received ++ [vg], ?_, ?_⟩, fun hc => absurd hc hopen,
          h.loader.frame (by simp [hr]) rfl id rfl⟩
        · rw [hserved, hp, List.append_assoc, List.singleton_append]
        · simp only [Receiver.holding, List.append_nil] at hmap ⊢
          rw [List.map_append, hmap, List.map_singleton, hvrx]
          simp
  next vrx hr =>
    obtain ⟨received, hserved, hmap⟩ := h.stream_at hr nofun
    have hopen := h.still_open hr rfl
    split
    · refine ⟨fun _ => ⟨received, hserved, ?_⟩, fun hc => absurd hc hopen,
        h.loader.push (by simpa using hopen) (by simp [hr]) rfl⟩
      simpa [Receiver.holding] using hmap
    · exact h
  next res hr =>
    have hstream := h.stream_at hr nofun
    have hopen := h.still_open hr rfl
    exact ⟨fun _ => hstream, fun hc => absurd hc hopen, h.loader.frame (by simp [hr]) rfl id rfl⟩
  next res hr =>
    have hstream := h.stream_at hr nofun
    exact ⟨fun _ => hstream, fun _ => rfl, h.loader.frame (by simp [hr]) rfl (fun _ => rfl) rfl⟩
  next res hr =>
    have hstream := h.stream_at hr nofun
    exact ⟨fun _ => hstream, fun _ => rfl, h.loader.frame (by simp [hr]) rfl id rfl⟩
  next => exact h
  next => exact h

theorem Startup.load_cases (sched : LoadSchedule) (s : Startup) :
    s.load sched = s ∨
    (s.loader = .started ∧ s.book.dagLoaded = true ∧
      s.load sched = { s.cancel with loader := .returned (some [.errDagIsLoaded]) }) ∨
    (s.loader = .started ∧ s.book.dagLoaded = false ∧ s.load sched = { s with loader := .ranging }) ∨
    (∃ vrx chVrx result, s.loader = .ranging ∧ s.chVrx = vrx :: chVrx ∧
      s.book.loadVertices sched.saveFails [some vrx] = result ∧
      ((result.2 = none ∧ s.load sched = { s with chVrx, book := result.1 }) ∨
        (result.2 ≠ none ∧ s.load sched = { s with chVrx }.finish result))) ∨
    (s.loader = .ranging ∧ s.chVrx = [] ∧ s.chClosed = true ∧
      s.load sched = s.finish (s.book.loadLocked sched [])) := by
  unfold Startup.load
  split
  next => exact Or.inl rfl
  next => exact Or.inl rfl
  next => exact Or.inl rfl
  next hl _ =>
    split
    next hb => exact Or.inr (Or.inl ⟨hl, hb, rfl⟩)
    next hb => exact Or.inr (Or.inr (Or.inl ⟨hl, by simpa using hb, rfl⟩))
  next hl _ =>
    split
    next vrx chVrx hch =>
      refine Or.inr (Or.inr (Or.inr (Or.inl ⟨vrx, chVrx, _, hl, hch, rfl, ?_⟩)))
      split
      next hres => exact Or.inl ⟨by rw [hres], by rw [hres]⟩
      next hres => exact Or.inr ⟨fun hnone => hres _ (Prod.ext rfl hnone), rfl⟩
    next hch =>
      split
      next hc => exact Or.inr (Or.inr (Or.inr (Or.inr ⟨hl, hch, hc, rfl⟩)))
      next => exact Or.inl rfl

theorem Startup.finish_same (s : Startup) (result : Book × Option Err) :
    (s.finish result).pending = s.pending ∧ (s.finish result).receiver = s.receiver ∧
      (s.finish result).chVrx = s.chVrx ∧ (s.finish result).chClosed = s.chClosed := by
  unfold Startup.finish Startup.cancel
  split <;> exact ⟨rfl, rfl, rfl, rfl⟩

theorem Joined.load (h : Joined b sched served taken s) :
    ∃ more, Joined b sched served (taken ++ more) (s.load sched) := by
  have hl := h.loader
  rcases s.load_cases sched with he | ⟨hs, hb, he⟩ | ⟨hs, hb, he⟩ | ⟨vrx, chVrx, result, hs, hch, hres, hstep⟩ |
    ⟨hs, hch, hclosed, he⟩
  · exact ⟨[], by rw [he, List.append_nil]; exact h⟩
  · rw [hs] at hl
    obtain ⟨rfl, hbook⟩ := hl
    rw [hbook] at hb
    refine ⟨[], ?_⟩
    rw [he]
    exact ⟨h.stream, h.closed, Or.inl fun more => by simp [Book.loadDag, hb]⟩
  · rw [hs] at hl
    obtain ⟨rfl, hbook⟩ := hl
    rw [hbook] at hb
    refine ⟨[], ?_⟩
    rw [he]
    exact ⟨h.stream, h.closed, hb, by rw [hbook]; rfl⟩
  · rw [hs] at hl
    obtain ⟨hb, hread⟩ := hl
    refine ⟨[vrx], ?_⟩
    have hstream : ∀ t : Startup, t.pending = s.pending → t.receiver = s.receiver → t.chVrx = chVrx →
        t.receiver ≠ .crashed → ∃ received, served = received ++ t.pending ∧
          received.map mapProtoVertexToAccountantVertex =
            (taken ++ [vrx] ++ t.chVrx ++ t.receiver.holding).map .ok := by
      rintro t hp hr hc hcr
      rw [hp, hr, hc]
      obtain ⟨received, hserved, hmap⟩ := h.stream (hr ▸ hcr)
      exact ⟨received, hserved, by rw [hmap, hch]; simp⟩
    rcases hstep with ⟨hnone, he⟩ | ⟨hsome, he⟩
    · rw [he]
      refine ⟨hstream _ rfl rfl rfl, h.closed, ?_⟩
      simp only [hs]
      refine ⟨hb, ?_⟩
      rw [List.map_append, Book.loadVertices_append _ _ hread, List.map_singleton, hres, ← hnone]
    · rw [he]
      obtain ⟨hp, hr, hc, hcl⟩ := Startup.finish_same { s with chVrx } result
      refine ⟨hstream _ hp hr hc, fun h' => by rw [hr]; exact h.closed (hcl.symm.trans h'), ?_⟩
      obtain ⟨e, hcause⟩ := Option.ne_none_iff_exists'.mp hsome
      simp only [Startup.finish, hcause]
      refine Or.inl fun more => Book.loadDag_stuck ?_
      rw [List.map_append, List.append_assoc]
      exact Book.loadVertices_stuck more hread (by rw [hres]; exact hsome)
  · rw [hs] at hl
    obtain ⟨hb, hread⟩ := hl
    refine ⟨[], ?_⟩
    rw [he, List.append_nil]
    obtain ⟨hp, hr, hc, hcl⟩ := s.finish_same (s.book.loadLocked sched [])
    have hdag := Book.loadDag_of_read hb hread
    refine ⟨?_, fun h' => by rw [hr]; exact h.closed (hcl.symm.trans h'), ?_⟩
    · rw [hp, hr, hc]
      exact h.stream
    · cases hcause : (s.book.loadLocked sched []).2 with
      | none =>
        have hl : (s.finish (s.book.loadLocked sched [])).loader = .returned none := by rw [← hcause]; rfl
        rw [hl]
        exact ⟨hc.trans hch, hcl.trans hclosed, by rw [hdag, hcause]; rfl⟩
      | some e =>
        have hl : (s.finish (s.book.loadLocked sched [])).loader = .returned (some e) := by rw [← hcause]; rfl
        rw [hl]
        exact Or.inr ⟨hc.trans hch, hcl.trans hclosed, by rw [hdag, hcause]; simp⟩

theorem Joined.begin (b : Book) (sched : LoadSchedule) (served : List ProtoVertex) (dials opens : Bool) :
    Joined b sched served [] (Startup.begin dials opens served b) := by
  refine ⟨fun _ => ⟨[], rfl, ?_⟩, nofun, ?_⟩
  · cases dials <;> cases opens <;> rfl
  · cases dials <;> cases opens
    · exact ⟨_, rfl⟩
    · exact ⟨_, rfl⟩
    · exact ⟨_, rfl⟩
    · exact ⟨rfl, rfl⟩

end Steps

/-! ### What may be reported -/

/-- `updateDag` has returned nil only if the book is loaded with every streamed vertex, and with an error if
    `LoadDag` has cancelled with one. -/
structure Reports (served : List ProtoVertex) (s : Startup) : Prop where
  loaded : s.receiver = .returned none → s.book.dagLoaded = true ∧
    ∀ vg ∈ served, ∃ v, mapProtoVertexToAccountantVertex vg = .ok v ∧ s.book.dag.getVertex v.hash = some v
  failed : ∀ cause res, s.loader = .returned (some cause) → s.receiver = .returned res → res ≠ none

/-- The stream is one that the book can load: it has no graph and knows none of the transactions, its stores
    work, and the vertices make a graph. -/
structure Acceptable (b : Book) (sched : LoadSchedule) (served : List ProtoVertex) : Prop where
  notLoaded : b.dagLoaded = false
  empty : ∀ k, b.dag.getVertex k = none
  stores : ∀ k, sched.saveFails k = false
  stream : ∃ vs whole, served.map mapProtoVertexToAccountantVertex = vs.map .ok ∧ Loadable vs whole ∧
    ∀ v ∈ vs, b.trxsToVertxDB.lookup v.transaction.hash = none

/-- CONDITION on a step and the state before it: where `updateDag` is about to return nil, the stream has been
    read to its end, `LoadDag` has ended, and the stream is acceptable. -/
def Steady (b : Book) (sched : LoadSchedule) (served : List ProtoVertex) (s : Startup) (e : StartupEvent) : Prop :=
  (∃ broken, e = .receive broken) → s.receiver = .closed none →
    s.pending = [] ∧ s.loader.ended = true ∧ Acceptable b sched served

/-- INVARIANT: where `updateDag` has returned nil, `LoadDag` has ended without an error before, and the book is
    loaded. -/
structure Reported (b : Book) (sched : LoadSchedule) (served : List ProtoVertex) (s : Startup) : Prop where
  joined : ∃ taken, Joined b sched served taken s
  done : s.receiver = .returned none → s.loader = .returned none ∧ s.book.dagLoaded = true ∧
    ∀ vg ∈ served, ∃ v, mapProtoVertexToAccountantVertex vg = .ok v ∧ s.book.dag.getVertex v.hash = some v

section Runs

variable {b : Book} {sched : LoadSchedule} {served : List ProtoVertex} {s : Startup}

theorem Acceptable.loads (ha : Acceptable b sched served) {taken : List Vertex}
    (hmap : served.map mapProtoVertexToAccountantVertex = taken.map .ok) :
    ∃ b', b.loadDag sched (taken.map some) = (b', none) ∧ b'.dagLoaded = true ∧
      ∀ vg ∈ served, ∃ v, mapProtoVertexToAccountantVertex vg = .ok v ∧ b'.dag.getVertex v.hash = some v := by
  obtain ⟨vs, whole, hvs, hl, hnew⟩ := ha.stream
  have heq : taken = vs := List.map_injective_iff.mpr (fun _ _ h => Except.ok.inj h) (hmap.symm.trans hvs)
  subst heq
  rw [← delivered_map_some taken] at hl hnew
  obtain ⟨b', hload, hget, -, hloaded⟩ := hl.loadDag ha.notLoaded ha.empty hnew ha.stores
  rw [delivered_map_some] at hl
  refine ⟨b', hload, hloaded.dagLoaded, fun vg hvg => ?_⟩
  have hmem : mapProtoVertexToAccountantVertex vg ∈ taken.map Except.ok := hmap ▸ List.mem_map_of_mem hvg
  obtain ⟨v, hv, hveq⟩ := List.mem_map.mp hmem
  exact ⟨v, hveq.symm, by rw [hget]; exact (hl.get _ _).mpr ⟨hv, rfl⟩⟩

theorem Joined.returns {taken : List Vertex} (h : Joined b sched served taken s) (hr : s.receiver = .closed none)
    (hp : s.pending = []) (hended : s.loader.ended = true) (ha : Acceptable b sched served) :
    s.loader = .returned none ∧ s.book.dagLoaded = true ∧
      ∀ vg ∈ served, ∃ v, mapProtoVertexToAccountantVertex vg = .ok v ∧ s.book.dag.getVertex v.hash = some v := by
  obtain ⟨received, hserved, hmap⟩ := h.stream (by rw [hr]; nofun)
  rw [hp, List.append_nil] at hserved
  simp only [hr, Receiver.holding, List.append_nil, ← hserved] at hmap
  obtain ⟨b', hload, hloaded, hget⟩ := ha.loads hmap
  have hl := h.loader
  rcases hloader : s.loader with _ | _ | _ | _ | cause
  case absent => rw [hloader] at hended; cases hended
  case started => rw [hloader] at hended; cases hended
  case ranging => rw [hloader] at hended; cases hended
  case returned.none =>
    rw [hloader] at hl
    obtain ⟨hch, -, hdag⟩ := hl
    rw [hch, List.append_nil, hdag] at hload
    obtain ⟨rfl, -⟩ := Prod.mk.inj hload
    exact ⟨rfl, hloaded, hget⟩
  case returned.some =>
    rw [hloader] at hl
    rcases hl with hstuck | ⟨hch, -, hstuck⟩
    · exact absurd (by rw [← List.map_append, hload]) (hstuck (s.chVrx.map some))
    · rw [hch, List.append_nil] at hload
      exact absurd (by rw [hload]) hstuck

theorem Reported.step (e : StartupEvent) (hsteady : Steady b sched served s e) (h : Reported b sched served s) :
    Reported b sched served (s.step sched e) := by
  obtain ⟨⟨taken, hj⟩, hdone⟩ := h
  cases e with
  | receive broken =>
    refine ⟨⟨taken, hj.receive broken⟩, fun hr => ?_⟩
    simp only [Startup.step] at hr ⊢
    unfold Startup.receive at hr ⊢
    split at hr
    next => split at hr <;> cases hr
    next =>
      split at hr
      · cases hr
      · split at hr
        · cases hr
        · split at hr <;> cases hr
    next hs =>
      split at hr
      · cases hr
      · rw [hs] at hr; cases hr
    next => cases hr
    next => cases hr
    next res hs =>
      cases hr
      obtain ⟨hp, hended, ha⟩ := hsteady ⟨broken, rfl⟩ hs
      exact hj.returns hs hp hended ha
    next => exact hdone hr
    next hs => rw [hs] at hr; cases hr
  | load =>
    obtain ⟨more, hj'⟩ := hj.load
    refine ⟨⟨taken ++ more, hj'⟩, fun hr => ?_⟩
    simp only [Startup.step] at hr ⊢
    rcases s.load_cases sched with he | ⟨hs, -, he⟩ | ⟨hs, -, he⟩ | ⟨vrx, chVrx, result, hs, -, -, hstep⟩ |
      ⟨hs, -, -, he⟩
    · rw [he] at hr ⊢
      exact hdone hr
    -- a `LoadDag` that has not ended does not stand beside a nil result
    · rw [he] at hr
      exact absurd ((hdone hr).1.symm.trans hs) nofun
    · rw [he] at hr
      exact absurd ((hdone hr).1.symm.trans hs) nofun
    · have hr' : s.receiver = .returned none := by
        rcases hstep with ⟨-, he⟩ | ⟨-, he⟩
        · rw [he] at hr
          exact hr
        · rw [he, (Startup.finish_same _ _).2.1] at hr
          exact hr
      exact absurd ((hdone hr').1.symm.trans hs) nofun
    · rw [he, (Startup.finish_same _ _).2.1] at hr
      exact absurd ((hdone hr).1.symm.trans hs) nofun
  | parent e => exact ⟨⟨taken, hj.stream, hj.closed, hj.loader.frame (fun _ => id) rfl id rfl⟩, hdone⟩

theorem Reported.reports (h : Reported b sched served s) : Reports served s := by
  refine ⟨fun hr => (h.done hr).2, ?_⟩
  rintro cause res hl hr rfl
  cases (h.done hr).1.symm.trans hl

theorem Reported.begin (b : Book) (sched : LoadSchedule) (served : List ProtoVertex) (dials opens : Bool) :
    Reported b sched served (Startup.begin dials opens served b) := by
  refine ⟨⟨[], Joined.begin b sched served dials opens⟩, fun hr => ?_⟩
  cases dials <;> cases opens <;> cases hr

end Runs

/-- VERDICT: in every interleaving in which `updateDag` returns nil only after `LoadDag` has ended, with nothing
    of the stream left and a stream that the book can load, start-up reports what has happened. -/
theorem startup_reports {b : Book} {sched : LoadSchedule} {served : List ProtoVertex} (dials opens : Bool)
    {es : List StartupEvent}
    (hsteady : Along (Startup.step sched) (Steady b sched served) (Startup.begin dials opens served b) es) :
    Reports served (run (Startup.step sched) (Startup.begin dials opens served b) es) :=
  (run_invariant_along (fun _ e he h => Reported.step e he h) hsteady
    (Reported.begin b sched served dials opens)).reports

namespace Transparent

/-- A stream as the other node sends it. -/
def onWire (st : List (Option Vertex)) : List ProtoVertex := (delivered st).map mapAccountantVertexToProtoVertex

def receives (n : ℕ) : List StartupEvent := List.replicate n (.receive false)
def loads (n : ℕ) : List StartupEvent := List.replicate n .load

/-- A new node that starts up from the stream. -/
def startFrom (sched : LoadSchedule) (st : List (Option Vertex)) (es : List StartupEvent) : Startup :=
  run (Startup.step sched) (Startup.begin true true (onWire st) (newAccountingBook 0)) es

def brokenStores : LoadSchedule := ⟨[], [], fun _ => true⟩

theorem goodStream_acceptable : Acceptable (newAccountingBook 0) loadCalm (onWire goodStream) where
  notLoaded := rfl
  empty := newAccountingBook_getVertex 0
  stores _ := rfl
  stream := by
    have hnone : freshLoad.2 = none := by decide +kernel
    have haccept : freshLoad = (freshLoad.1, none) := by rw [← hnone]
    exact ⟨[root 10, child], freshLoad.1.dag, by decide +kernel,
      loadable_of_loadDag (newAccountingBook_getVertex 0) haccept, fun _ _ => AList.lookup_empty _⟩

end Transparent

open Transparent in
/-- BUG: `updateDag` returns nil before `LoadDag` has read a vertex of a good stream; it returns nil for a stream
    that `LoadDag` then refuses; and it returns nil because `LoadDag` has cancelled at the first vertex. -/
theorem failed_start_reported_as_success :
    ((startFrom loadCalm goodStream (receives 11)).receiver = .returned none ∧
      ¬ Reports (onWire goodStream) (startFrom loadCalm goodStream (receives 11))) ∧
    ((startFrom loadCalm badStream (receives 11 ++ loads 4)).loader = .returned (some [.dag]) ∧
      ¬ Reports (onWire badStream) (startFrom loadCalm badStream (receives 11 ++ loads 4))) ∧
    (startFrom brokenStores goodStream (receives 3 ++ loads 2 ++ receives 4)).loader =
        .returned (some [.errLeafRejected]) ∧
      ¬ Reports (onWire goodStream) (startFrom brokenStores goodStream (receives 3 ++ loads 2 ++ receives 4)) := by
  have hearly : (startFrom loadCalm goodStream (receives 11)).receiver = .returned none ∧
      (startFrom loadCalm goodStream (receives 11)).book.dagLoaded = false := by decide +kernel
  have hrefused : (startFrom loadCalm badStream (receives 11 ++ loads 4)).loader = .returned (some [.dag]) ∧
      (startFrom loadCalm badStream (receives 11 ++ loads 4)).receiver = .returned none := by decide +kernel
  have hcancelled : (startFrom brokenStores goodStream (receives 3 ++ loads 2 ++ receives 4)).loader =
        .returned (some [.errLeafRejected]) ∧
      (startFrom brokenStores goodStream (receives 3 ++ loads 2 ++ receives 4)).receiver = .returned none := by
    decide +kernel
  refine ⟨⟨hearly.1, fun h => ?_⟩, ⟨hrefused.1, fun h => ?_⟩, hcancelled.1, fun h => ?_⟩
  · exact absurd ((h.loaded hearly.1).1.symm.trans hearly.2) (by decide)
  · exact h.failed _ _ hrefused.1 hrefused.2 rfl
  · exact h.failed _ _ hcancelled.1 hcancelled.2 rfl

open Transparent in
/-- Where `LoadDag` ends before the return, the nil result is true. -/
theorem waited_start_reports :
    (startFrom loadCalm goodStream (receives 10 ++ loads 4 ++ receives 1)).receiver = .returned none ∧
      Reports (onWire goodStream) (startFrom loadCalm goodStream (receives 10 ++ loads 4 ++ receives 1)) := by
  have hlast : Along (Startup.step loadCalm)
      (fun s e => e ≠ .load → s.receiver = .closed none → s.pending = [] ∧ s.loader.ended = true)
      (Startup.begin true true (onWire goodStream) (newAccountingBook 0))
      (receives 10 ++ loads 4 ++ receives 1) := by decide +kernel
  refine ⟨by decide +kernel, startup_reports true true (hlast.mono ?_)⟩
  rintro s e he ⟨broken, rfl⟩ hr
  obtain ⟨hp, hended⟩ := he nofun hr
  exact ⟨hp, hended, goodStream_acceptable⟩

end Computantis
