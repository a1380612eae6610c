import Computantis.Laws.Assumptions
import Computantis.Schemes.Reactive

/-! @law throttling | name:Requests that nobody signed | family:noninterference | about:Model/Service

    A request that does not verify is refused by every handler, and most of them refuse it before they
    touch anything. Two ask the flash memory first, which notes the address of the request: the next who
    asks for this address is turned away, whoever they are. And where a handler takes a hash out of a
    message that is too short, or `Verify` panics over an address of it, the request takes the server down
    with it. -/

namespace Computantis

open Schemes

/-! ### What a request is -/

/-- The verification of the request does not return. -/
def SignedHash.Breaks (v : Verifier) (req : SignedHash) : Prop :=
  v.Breaks req.data req.signature req.hash req.address

namespace Request

/-- The signatures of the request are those of the addresses it names. -/
def verified (v : Verifier) : Request → Bool
  | .propose req => match protoTrxToTrx req with
    | .ok trx => trx.verifyIssuer v
    | .error _ => false
  | .confirm req => match protoTrxToTrx req with
    | .ok trx => trx.verifyIssuerReceiver v
    | .error _ => false
  | .reject req => match req with
    | some req => (req.signed v).toOption.getD false
    | none => false
  | .waiting req => (req.signed v).toOption.getD false
  | .saved req => (req.signed v).toOption.getD false
  | .balance req => (req.signed v).toOption.getD false
  | .transactionsInDAG req => (req.signed v).toOption.getD false

/-- The address that the handler asks the flash memory for. -/
def asked : Request → Option Address
  | .balance req => some req.address
  | .transactionsInDAG req => some req.address
  | _ => none

/-- The request is let past the throttle, if there is one. -/
def Passes (w : Circumstance) (flash : Flashback) (r : Request) : Prop :=
  ∀ a ∈ r.asked, w.flashGet = false ∧ a ∉ flash

/-- The handler takes an array out of a slice that is too short for it, reads through a nil pointer, or calls
    `Verify` over an address at which it panics. -/
def Breaks (v : Verifier) (w : Circumstance) : Request → Prop
  | .propose req => TrxBreaks (Transaction.checkIssuer v) req
  | .confirm req => TrxBreaks (Transaction.checkIssuerReceiver v) req
  | .reject req => ∃ r ∈ req, r.Breaks v
  | .waiting req => w.dataValid = true ∧ req.Breaks v
  | .saved req => req.Breaks v
  | .balance req => req.data = req.address ∧ req.Breaks v
  | .transactionsInDAG req => w.dataValid = true ∧ req.Breaks v

end Request

/-! ### Handlers that do not look at the flash memory -/

/-- The handler neither reads nor writes the flash memory. -/
def Blind {α : Type} (h : Service → Service × α) : Prop :=
  ∀ (s : Service) (flash : Flashback), h { s with flash } = ({ (h s).1 with flash }, (h s).2)

section Blindness

variable {env : ServerEnv} {w : Circumstance}

theorem Blind.flash_eq {α : Type} {h : Service → Service × α} (hb : Blind h) (s : Service) :
    (h s).1.flash = s.flash := by
  have hs := hb s s.flash
  rw [show ({ s with flash := s.flash } : Service) = s from rfl] at hs
  rw [hs]

theorem createLeaf_blind (trx : Transaction) (forget : List Chore) :
    Blind fun s => s.createLeaf env w trx forget := by
  intro s flash
  simp only [Service.createLeaf]
  rcases s.book.createLeaf env.ledger trx w.first w.second w.now w.ledger with ⟨book, vrx | e | _⟩
  · simp only
    rcases s.pipe.sendVrx vrx with ⟨pipe, _ | _⟩ <;> rfl
  · rfl
  · rfl

theorem propose_blind (req : Option ProtoTransaction) : Blind fun s => s.propose env w req := by
  intro s flash
  simp only [Service.propose]
  rcases Notary.propose env w.cache s.cache req with ⟨cache, e | _ | trx⟩
  · rfl
  · rfl
  · exact createLeaf_blind trx _ { s with cache } flash

theorem confirm_blind (req : Option ProtoTransaction) : Blind fun s => s.confirm env w req := by
  intro s flash
  simp only [Service.confirm]
  rcases Notary.confirm env w.cache s.cache req with ⟨cache, e | trx⟩
  · rfl
  · exact createLeaf_blind trx _ { s with cache } flash

theorem reject_blind (req : Option SignedHash) : Blind fun s => s.reject env w req := by
  intro s flash
  simp only [Service.reject]
  rcases Notary.reject env w.cache s.cache req with ⟨cache, e | trx⟩
  · rfl
  · exact createLeaf_blind trx _ { s with cache } flash

theorem waiting_blind (req : SignedHash) : Blind fun s => s.waiting env w req := by
  intro s flash
  simp only [Service.waiting]
  split
  · rfl
  · rcases req.signed env.ledger.verifier with e | _ | _
    · rfl
    · rfl
    · simp only
      rcases readTransactions env.trxCodec w.cache s.cache req.address with ⟨cache, ⟨trxs, _ | err⟩ | _⟩ <;> rfl

theorem saved_blind (req : SignedHash) : Blind fun s => s.saved env w req := by
  intro s flash
  simp only [Service.saved]
  rcases req.signed env.ledger.verifier with e | _ | _
  · rfl
  · rfl
  · simp only
    rcases Hash.ofSlice req.data with e | hash
    · rfl
    · simp only
      rcases s.book.readTransactionByHash env.ledger.codec hash w.mapFails w.readFails with e | trx
      · rfl
      · simp only
        split
        · rfl
        · rcases trxToProtoTrx trx with e | p <;> rfl

theorem answerBalance_blind (req : SignedHash) : Blind fun s => s.answerBalance env w req := by
  intro s flash
  simp only [Service.answerBalance]
  split
  · rfl
  · rcases req.signed env.ledger.verifier with e | _ | _
    · rfl
    · rfl
    · simp only
      rcases readBalance env.ledger.codec w.cache s.cache req.address with e | m
      · simp only
        rcases s.book.calculateBalance env.ledger w.order w.walk w.fundsFail w.now req.address with e | b <;> rfl
      · rfl

theorem answerTransactionsInDAG_blind (req : SignedHash) :
    Blind fun s => s.answerTransactionsInDAG env w req := by
  intro s flash
  simp only [Service.answerTransactionsInDAG]
  split
  · rfl
  · rcases req.signed env.ledger.verifier with e | _ | _
    · rfl
    · rfl
    · simp only
      rcases s.book.readDAGTransactionsByAddress w.order w.walk req.address with e | trxs <;> rfl

end Blindness

/-! ### What a refused request leaves behind -/

/-- The flash memory after it was asked for an address. -/
def Circumstance.notes (w : Circumstance) (flash : Flashback) (a : Address) : Flashback :=
  if w.flashSet then flash else insert a flash

/-- The flash memory after a request. -/
def Request.noted (w : Circumstance) (flash : Flashback) (r : Request) : Flashback :=
  match r.asked with
  | none => flash
  | some a => w.notes flash a

section Refusal

variable {env : ServerEnv} {w : Circumstance} {s : Service} {req : SignedHash}
  {res : Service × Except NotaryError Reply}

/-- The handler refuses and leaves the server as it is, and panics exactly under the condition. -/
def Refused (res : Service × Except NotaryError Reply) (s : Service) (B : Prop) : Prop :=
  ∃ e, res = (s, .error e) ∧ (e = .wire .panicked ↔ B)

theorem Refused.congr {B B' : Prop} (h : Refused res s B) (hB : B ↔ B') : Refused res s B' := by
  obtain ⟨e, hres, he⟩ := h
  exact ⟨e, hres, he.trans hB⟩

theorem signed_cases {v : Verifier} (h : (req.signed v).toOption.getD false = false) :
    (req.signed v = .error .panicked ∧ req.Breaks v) ∨ (req.signed v = .ok false ∧ ¬ req.Breaks v) := by
  by_cases hlen : req.hash.length < 32
  · exact Or.inl ⟨by rw [SignedHash.signed, Hash.ofSlice_short hlen], Or.inl hlen⟩
  · obtain ⟨hash, hhash⟩ := Hash.ofSlice_long hlen
    rw [SignedHash.Breaks, Verifier.breaks_iff hhash]
    rw [SignedHash.signed, hhash] at h ⊢
    simp only at h ⊢
    cases hcheck : v.check req.data req.signature hash req.address with
    | accepted =>
      rw [hcheck] at h
      cases h
    | refused => exact Or.inr ⟨rfl, by simp⟩
    | panicked => exact Or.inl ⟨rfl, rfl⟩

theorem signed_refused {v : Verifier} (h : (req.signed v).toOption.getD false = false)
    (hpanic : req.signed v = .error .panicked → res = (s, .error (.wire .panicked)))
    (hfalse : req.signed v = .ok false → res = (s, .error .errVerification)) : Refused res s (req.Breaks v) := by
  rcases signed_cases h with ⟨hs, hbreaks⟩ | ⟨hs, hbreaks⟩
  · exact ⟨_, hpanic hs, iff_of_true rfl hbreaks⟩
  · exact ⟨_, hfalse hs, iff_of_false (by simp) hbreaks⟩

theorem throttled_eq (a : Address) (answer : Service → Service × Except NotaryError Reply) :
    s.throttled w a answer =
      if w.flashGet = true then ({ s with flash := w.notes s.flash a }, .error .errProcessing)
      else if a ∈ s.flash then ({ s with flash := w.notes s.flash a }, .error .errThrottle)
      else answer { s with flash := w.notes s.flash a } := by
  simp only [Service.throttled, Flashback.hasAddress, Flashback.has, Circumstance.notes]
  by_cases hg : w.flashGet = true
  · simp [hg]
  · by_cases ha : a ∈ s.flash <;> simp [hg, ha]

theorem throttled_refused {a : Address} {answer : Service → Service × Except NotaryError Reply} {B : Prop}
    (h : ∀ t : Service, Refused (answer t) t B) :
    Refused (s.throttled w a answer) { s with flash := w.notes s.flash a }
      (B ∧ w.flashGet = false ∧ a ∉ s.flash) := by
  rw [throttled_eq]
  by_cases hg : w.flashGet = true
  · rw [if_pos hg]
    exact ⟨_, rfl, by simp [hg]⟩
  · rw [if_neg hg]
    by_cases ha : a ∈ s.flash
    · rw [if_pos ha]
      exact ⟨_, rfl, by simp [ha]⟩
    · rw [if_neg ha]
      exact (h _).congr (by simp [hg, ha])

theorem propose_refused {req : Option ProtoTransaction}
    (hr : (Request.propose req).verified env.ledger.verifier = false) :
    Refused (s.propose env w req) s ((Request.propose req).Breaks env.ledger.verifier w) := by
  cases req with
  | none => exact ⟨_, rfl, by simp [Request.Breaks, TrxBreaks, protoTrxToTrx]⟩
  | some p =>
    simp only [Request.verified] at hr
    simp only [Service.propose, Notary.propose, Request.Breaks, TrxBreaks]
    cases hp : protoTrxToTrx (some p) with
    | error e => exact ⟨_, rfl, by simp⟩
    | ok trx =>
      rw [hp] at hr
      simp only [hr, if_true]
      exact ⟨_, rfl, by simp [Verdict.reported_eq_panicked_iff]⟩

theorem confirm_refused {req : Option ProtoTransaction}
    (hr : (Request.confirm req).verified env.ledger.verifier = false) :
    Refused (s.confirm env w req) s ((Request.confirm req).Breaks env.ledger.verifier w) := by
  simp only [Request.verified] at hr
  simp only [Service.confirm, Notary.confirm, Request.Breaks, TrxBreaks]
  cases hp : protoTrxToTrx req with
  | error e => exact ⟨_, rfl, by simp⟩
  | ok trx =>
    rw [hp] at hr
    simp only [hr, if_true]
    exact ⟨_, rfl, by simp [Verdict.reported_eq_panicked_iff]⟩

theorem reject_refused {req : Option SignedHash} (hr : (Request.reject req).verified env.ledger.verifier = false) :
    Refused (s.reject env w req) s ((Request.reject req).Breaks env.ledger.verifier w) := by
  cases req with
  | none => exact ⟨_, rfl, by simp [Request.Breaks]⟩
  | some p =>
    simp only [Service.reject, Notary.reject, Request.Breaks, Option.mem_some_iff, exists_eq_left', SignedHash.Breaks]
    by_cases hlen : p.hash.length < 32
    · rw [Hash.ofSlice_short hlen]
      exact ⟨_, rfl, iff_of_true rfl (Or.inl hlen)⟩
    · obtain ⟨hash, hhash⟩ := Hash.ofSlice_long hlen
      have hv : env.ledger.verifier.verify p.data p.signature hash p.address = false := by
        rw [← Bool.not_eq_true, Verifier.verify_iff]
        intro hcheck
        simp [Request.verified, SignedHash.signed, hhash, hcheck, Verdict.returned, Except.toOption] at hr
      simp only [hhash, hv, if_true, Verifier.breaks_iff hhash]
      exact ⟨_, rfl, by simp [Verdict.reported_eq_panicked_iff]⟩

theorem waiting_refused (hr : (Request.waiting req).verified env.ledger.verifier = false) :
    Refused (s.waiting env w req) s ((Request.waiting req).Breaks env.ledger.verifier w) := by
  unfold Service.waiting
  by_cases hv : w.dataValid = false
  · rw [if_pos hv]
    exact ⟨_, rfl, by simp [Request.Breaks, hv]⟩
  · rw [if_neg hv]
    refine (signed_refused hr (fun hs => by rw [hs]) fun hs => by rw [hs]).congr ?_
    simp [Request.Breaks, hv]

theorem saved_refused (hr : (Request.saved req).verified env.ledger.verifier = false) :
    Refused (s.saved env w req) s ((Request.saved req).Breaks env.ledger.verifier w) := by
  unfold Service.saved
  exact signed_refused hr (fun hs => by rw [hs]) fun hs => by rw [hs]

theorem answerBalance_refused (hr : (Request.balance req).verified env.ledger.verifier = false) :
    Refused (s.answerBalance env w req) s ((Request.balance req).Breaks env.ledger.verifier w) := by
  unfold Service.answerBalance
  by_cases hd : req.data ≠ req.address
  · rw [if_pos hd]
    exact ⟨_, rfl, by simp [Request.Breaks, hd]⟩
  · rw [if_neg hd]
    refine (signed_refused hr (fun hs => by rw [hs]) fun hs => by rw [hs]).congr ?_
    simp [Request.Breaks, not_not.mp hd]

theorem answerTransactionsInDAG_refused (hr : (Request.transactionsInDAG req).verified env.ledger.verifier = false) :
    Refused (s.answerTransactionsInDAG env w req) s
      ((Request.transactionsInDAG req).Breaks env.ledger.verifier w) := by
  unfold Service.answerTransactionsInDAG
  by_cases hv : w.dataValid = false
  · rw [if_pos hv]
    exact ⟨_, rfl, by simp [Request.Breaks, hv]⟩
  · rw [if_neg hv]
    refine (signed_refused hr (fun hs => by rw [hs]) fun hs => by rw [hs]).congr ?_
    simp [Request.Breaks, hv]

/-- SPEC (refusal): a request that does not verify changes nothing but the flash memory, and panics
    exactly when it is malformed and let past the throttle. -/
theorem handle_refuses (w : Circumstance) (s : Service) {r : Request} (hr : r.verified env.ledger.verifier = false) :
    Refused (s.handle env w r) { s with flash := r.noted w s.flash }
      (r.Breaks env.ledger.verifier w ∧ r.Passes w s.flash) := by
  have hpasses : ∀ q : Request, q.asked = none →
      (q.Breaks env.ledger.verifier w ↔ q.Breaks env.ledger.verifier w ∧ q.Passes w s.flash) := by
    intro q hq
    simp [Request.Passes, hq]
  have hthrottled : ∀ (q : Request) (a : Address), q.asked = some a →
      (q.Breaks env.ledger.verifier w ∧ w.flashGet = false ∧ a ∉ s.flash ↔
        q.Breaks env.ledger.verifier w ∧ q.Passes w s.flash) := by
    intro q a hq
    simp [Request.Passes, hq]
  cases r with
  | propose req => exact (propose_refused hr).congr (hpasses _ rfl)
  | confirm req => exact (confirm_refused hr).congr (hpasses _ rfl)
  | reject req => exact (reject_refused hr).congr (hpasses _ rfl)
  | waiting req => exact (waiting_refused hr).congr (hpasses _ rfl)
  | saved req => exact (saved_refused hr).congr (hpasses _ rfl)
  | balance req => exact (throttled_refused fun _ => answerBalance_refused hr).congr (hthrottled _ _ rfl)
  | transactionsInDAG req =>
    exact (throttled_refused fun _ => answerTransactionsInDAG_refused hr).congr (hthrottled _ _ rfl)

end Refusal

/-! ### Two runs, one with the address in the flash memory -/

namespace Service.Event

/-- The event asks the flash memory for the address, and gets an answer. -/
def Asks (a : Address) : Service.Event → Prop
  | .request r w => r.asked = some a ∧ w.flashGet = false
  | _ => False

/-- After the event it makes no difference whether the flash memory had the address. -/
def Settles (a : Address) (s : Service) : Service.Event → Prop
  | .request r w => r.asked = some a ∧ w.flashGet = true ∧ w.flashSet = false
  | .work i f => ∃ rest, s.tasks[i]? = some (.removeAddress a :: rest) ∧ f.delete a = false
  | .expire _ => False
  | .expireFlash key => key = a

end Service.Event

/-- Nobody gets an answer from the flash memory about the address before it makes no difference any
    more. -/
def Shielded (env : ServerEnv) (a : Address) : Service → List Service.Event → Prop
  | _, [] => True
  | s, e :: es => s.down = true ∨ e.Settles a s ∨ (¬ e.Asks a ∧ Shielded env a (s.step env e).1 es)

section Runs

variable {env : ServerEnv} {w : Circumstance} {s : Service} {a : Address} {r : Request} {e : Service.Event}

/-- The server with the address in its flash memory. -/
def Service.marked (s : Service) (a : Address) : Service := { s with flash := insert a s.flash }

theorem Blind.marked {α : Type} {h : Service → Service × α} (hb : Blind h) (s : Service) (a : Address) :
    h (s.marked a) = ((h s).1.marked a, (h s).2) := by
  have hs := hb s (insert a s.flash)
  rw [Service.marked, Service.marked, hb.flash_eq s]
  exact hs

theorem answers_down (es : List Service.Event) : ∀ {s : Service}, s.down = true →
    answers (Service.step env) s es = es.map fun | .request _ _ => .lost | _ => .none := by
  induction es with
  | nil => exact fun _ => rfl
  | cons e es ih =>
    intro s hs
    rw [answers, List.map_cons]
    cases e with
    | request r w =>
      simp only [Service.step, Service.serve, hs, if_true]
      rw [ih hs]
    | work i f =>
      simp only [Service.step, hs, if_true]
      rw [ih hs]
    | expire key =>
      have hs' : ({ s with cache := s.cache.erase key } : Service).down = true := hs
      exact congrArg (List.cons _) (ih hs')
    | expireFlash key =>
      have hs' : ({ s with flash := s.flash.erase key } : Service).down = true := hs
      exact congrArg (List.cons _) (ih hs')

theorem answers_lost_iff (es : List Service.Event) : ∀ {s : Service},
    answers (Service.step env) s es = (es.map fun | .request _ _ => .lost | _ => .none) ↔
      ∀ res, .answer res ∉ answers (Service.step env) s es := by
  induction es with
  | nil => exact ⟨fun _ _ h => (nomatch h), fun _ => rfl⟩
  | cons e es ih =>
    intro s
    rw [answers, List.map_cons, List.cons.injEq, ih]
    have hhead : (s.step env e).2 = (match e with | .request _ _ => Response.lost | _ => .none) ↔
        ∀ res, .answer res ≠ (s.step env e).2 := by
      cases e with
      | request r w =>
        simp only [Service.step, Service.serve]
        split
        · simp
        · split <;> simp
      | work i f => simp [Service.step]
      | expire key => simp [Service.step]
      | expireFlash key => simp [Service.step]
    rw [hhead]
    simp only [List.mem_cons, not_or]
    exact ⟨fun h res => ⟨h.1 res, h.2 res⟩, fun h => ⟨fun res => (h res).1, fun res => (h res).2⟩⟩

theorem serve_up (hs : s.down = false) (r : Request) : s.serve env w r =
    match (s.handle env w r).2 with
    | .error (.wire .panicked) => ({ (s.handle env w r).1 with down := true }, .lost)
    | res => ((s.handle env w r).1, .answer res) := by
  unfold Service.serve
  rw [hs]
  simp only [Bool.false_eq_true, if_false]
  rcases s.handle env w r with ⟨t, res⟩
  rcases res with (e | _) <;> try rfl
  cases e with
  | wire e => cases e <;> rfl
  | _ => rfl

theorem handle_blind (hr : r.asked = none) : Blind fun s => s.handle env w r := by
  cases r with
  | propose req => exact propose_blind req
  | confirm req => exact confirm_blind req
  | reject req => exact reject_blind req
  | waiting req => exact waiting_blind req
  | saved req => exact saved_blind req
  | balance req => cases hr
  | transactionsInDAG req => cases hr

theorem handle_asked (env : ServerEnv) (w : Circumstance) {b : Address} (hr : r.asked = some b) :
    ∃ answer : Service → Service × Except NotaryError Reply, Blind answer ∧
      (∀ t, (answer t).2 ≠ .error .errThrottle) ∧ ∀ t : Service, t.handle env w r = t.throttled w b answer := by
  cases r with
  | balance req =>
    cases hr
    refine ⟨_, answerBalance_blind req, fun t => ?_, fun t => rfl⟩
    simp only [Service.answerBalance]
    split
    · simp
    · rcases req.signed env.ledger.verifier with e | _ | _
      · simp
      · simp
      · simp only
        rcases readBalance env.ledger.codec w.cache t.cache req.address with e | m
        · simp only
          rcases t.book.calculateBalance env.ledger w.order w.walk w.fundsFail w.now req.address with e | b <;> simp
        · simp
  | transactionsInDAG req =>
    cases hr
    refine ⟨_, answerTransactionsInDAG_blind req, fun t => ?_, fun t => rfl⟩
    simp only [Service.answerTransactionsInDAG]
    split
    · simp
    · rcases req.signed env.ledger.verifier with e | _ | _
      · simp
      · simp
      · simp only
        rcases t.book.readDAGTransactionsByAddress w.order w.walk req.address with e | trxs <;> simp
  | _ => cases hr

theorem notes_comm (flash : Flashback) (a b : Address) : w.notes (insert a flash) b = insert a (w.notes flash b) := by
  unfold Circumstance.notes
  split
  · rfl
  · exact Finset.insert_comm b a flash

theorem handle_marked (env : ServerEnv) (ha : a ∉ s.flash) (hasks : r.asked = some a → w.flashGet = true)
    (hset : r.asked = some a → w.flashSet = true) :
    (s.marked a).handle env w r = ((s.handle env w r).1.marked a, (s.handle env w r).2) ∧
      a ∉ (s.handle env w r).1.flash := by
  cases hr : r.asked with
  | none =>
    have hblind : Blind fun s => s.handle env w r := handle_blind hr
    have hflash : (s.handle env w r).1.flash = s.flash := hblind.flash_eq s
    exact ⟨hblind.marked s a, by rwa [hflash]⟩
  | some b =>
    obtain ⟨answer, hblind, -, hhandle⟩ := handle_asked env w hr
    rw [hhandle, hhandle, throttled_eq, throttled_eq]
    have hnotes : w.notes (s.marked a).flash b = insert a (w.notes s.flash b) := notes_comm s.flash a b
    have hout : a ∉ w.notes s.flash b := by
      unfold Circumstance.notes
      split
      · exact ha
      next hb =>
        have hne : a ≠ b := fun heq => hb (hset (by rw [hr, heq]))
        simp [hne, ha]
    rw [hnotes]
    by_cases hg : w.flashGet = true
    · rw [if_pos hg, if_pos hg]
      exact ⟨rfl, hout⟩
    · have hne : b ≠ a := fun heq => hg (hasks (by rw [hr, heq]))
      have hmem : b ∈ (s.marked a).flash ↔ b ∈ s.flash := by simp [Service.marked, hne]
      rw [if_neg hg, if_neg hg]
      by_cases hb : b ∈ s.flash
      · rw [if_pos hb, if_pos (hmem.mpr hb)]
        exact ⟨rfl, hout⟩
      · rw [if_neg hb, if_neg fun h => hb (hmem.mp h)]
        have hflash := hblind.flash_eq { s with flash := w.notes s.flash b }
        exact ⟨hblind.marked { s with flash := w.notes s.flash b } a, by rwa [hflash]⟩

theorem step_marked (env : ServerEnv) (hs : s.down = false) (ha : a ∉ s.flash) (hasks : ¬ e.Asks a)
    (hsettles : ¬ e.Settles a s) :
    (s.marked a).step env e = ((s.step env e).1.marked a, (s.step env e).2) ∧ a ∉ (s.step env e).1.flash := by
  have hs' : (s.marked a).down = false := hs
  cases e with
  | request r w =>
    have hget : r.asked = some a → w.flashGet = true := by
      intro hr
      by_contra hg
      exact hasks ⟨hr, by simpa using hg⟩
    have hset : r.asked = some a → w.flashSet = true := by
      intro hr
      by_contra hg
      exact hsettles ⟨hr, hget hr, by simpa using hg⟩
    obtain ⟨hmarked, hout⟩ := handle_marked env ha hget hset
    simp only [Service.step, serve_up hs, serve_up hs', hmarked]
    generalize s.handle env w r = res at hout ⊢
    obtain ⟨t, res⟩ := res
    split <;> exact ⟨rfl, hout⟩
  | work i f =>
    simp only [Service.step, hs, hs', Bool.false_eq_true, if_false]
    unfold Service.work
    rw [show (s.marked a).tasks = s.tasks from rfl]
    split
    next c rest hi =>
      cases c with
      | removeAddress b =>
        simp only [Service.chore, Flashback.removeAddress]
        split
        · exact ⟨rfl, ha⟩
        next hf =>
          have hne : a ≠ b := by
            rintro rfl
            exact hsettles ⟨rest, hi, by simpa using hf⟩
          refine ⟨?_, fun h => ha (Finset.mem_of_mem_erase h)⟩
          simp only [Service.marked, Finset.erase_insert_of_ne hne]
      | removeBalance b => exact ⟨rfl, ha⟩
      | saveBalance b m => exact ⟨rfl, ha⟩
      | sendTrx trx => exact ⟨rfl, ha⟩
    next => exact ⟨rfl, ha⟩
  | expire key => exact ⟨rfl, ha⟩
  | expireFlash key =>
    have hne : a ≠ key := fun heq => hsettles heq.symm
    refine ⟨?_, fun h => ha (Finset.mem_of_mem_erase h)⟩
    simp only [Service.step, Service.marked, Finset.erase_insert_of_ne hne]

theorem step_settles (hs : s.down = false) (he : e.Settles a s) : (s.marked a).step env e = s.step env e := by
  cases e with
  | request r w =>
    have hs' : (s.marked a).down = false := hs
    obtain ⟨hr, hget, hset⟩ := he
    obtain ⟨answer, -, -, hhandle⟩ := handle_asked env w hr
    have hsame : (s.marked a).handle env w r = s.handle env w r := by
      rw [hhandle, hhandle, throttled_eq, throttled_eq, if_pos hget, if_pos hget]
      simp [Service.marked, Circumstance.notes, hset]
    simp only [Service.step, serve_up hs, serve_up hs', hsame]
  | work i f =>
    obtain ⟨rest, hi, hf⟩ := he
    simp only [Service.step, hs, Service.work, hi, Service.chore, hf, Bool.false_eq_true, if_false,
      Flashback.removeAddress, Service.marked, Finset.erase_insert_eq_erase]
  | expire key => exact he.elim
  | expireFlash key =>
    cases he
    simp only [Service.step, Service.marked, Finset.erase_insert_eq_erase]

theorem step_asks (env : ServerEnv) (hs : s.down = false) (ha : a ∉ s.flash) (he : e.Asks a) :
    ((s.marked a).step env e).2 ≠ (s.step env e).2 := by
  have hs' : (s.marked a).down = false := hs
  cases e with
  | request r w =>
    obtain ⟨hr, hget⟩ := he
    obtain ⟨answer, -, hanswer, hhandle⟩ := handle_asked env w hr
    have hget' : ¬ w.flashGet = true := by simp [hget]
    have hin : a ∈ (s.marked a).flash := Finset.mem_insert_self a s.flash
    have hthrottle : ((s.marked a).handle env w r).2 = .error .errThrottle := by
      rw [hhandle, throttled_eq, if_neg hget', if_pos hin]
    have hother : (s.handle env w r).2 ≠ .error .errThrottle := by
      rw [hhandle, throttled_eq, if_neg hget', if_neg ha]
      exact hanswer _
    simp only [Service.step, serve_up hs, serve_up hs', hthrottle]
    split
    · simp
    · simpa using fun heq => hother heq.symm
  | _ => exact he.elim

theorem marked_unseen_iff (es : List Service.Event) : ∀ {s : Service}, a ∉ s.flash →
    (answers (Service.step env) (s.marked a) es = answers (Service.step env) s es ↔ Shielded env a s es) := by
  induction es with
  | nil => exact fun _ => ⟨fun _ => trivial, fun _ => rfl⟩
  | cons e es ih =>
    intro s ha
    rw [Shielded]
    by_cases hdown : s.down = true
    · have hdown' : (s.marked a).down = true := hdown
      rw [answers_down _ hdown, answers_down _ hdown']
      simp [hdown]
    · have hs : s.down = false := by simpa using hdown
      rw [answers, answers, List.cons.injEq]
      by_cases hsettles : e.Settles a s
      · rw [step_settles hs hsettles]
        simp [hsettles]
      · by_cases hasks : e.Asks a
        · have hne := step_asks env hs ha hasks
          simp [hne, hdown, hsettles, hasks]
        · obtain ⟨hstep, hout⟩ := step_marked env hs ha hasks hsettles
          rw [hstep]
          simp [hdown, hsettles, hasks, ih hout]

end Runs

/-- CONDITION (deletion): the server is down already; or the request takes it down, and nobody is answered
    any more anyway; or it leaves no mark, or one that is not seen. -/
def Traceless (env : ServerEnv) (s : Service) (r : Request) (w : Circumstance) (es : List Service.Event) : Prop :=
  s.down = true ∨
    (r.Breaks env.ledger.verifier w ∧ r.Passes w s.flash ∧ ∀ res, .answer res ∉ answers (Service.step env) s es) ∨
    (¬ (r.Breaks env.ledger.verifier w ∧ r.Passes w s.flash) ∧
      ∀ a ∈ r.asked, w.flashSet = true ∨ a ∈ s.flash ∨ Shielded env a s es)

/-- VERDICT (deletion): what a request that does not verify does to the answers of the others. -/
theorem unverified_unseen_iff (env : ServerEnv) (s : Service) (es : List Service.Event) {r : Request}
    (hr : r.verified env.ledger.verifier = false) (w : Circumstance) (fs : List Service.Event) :
    (answers (Service.step env) s (es ++ .request r w :: fs)).eraseIdx es.length =
        answers (Service.step env) s (es ++ fs) ↔
      Traceless env (reach (Service.step env) s es) r w fs := by
  rw [answers_without_iff]
  generalize reach (Service.step env) s es = t
  rw [Traceless]
  by_cases hdown : t.down = true
  · have hsame : (t.step env (.request r w)).1 = t := by simp [Service.step, Service.serve, hdown]
    simp [hsame, hdown]
  · have ht : t.down = false := by simpa using hdown
    obtain ⟨e, hhandle, he⟩ := handle_refuses w t hr
    by_cases hbreaks : r.Breaks env.ledger.verifier w ∧ r.Passes w t.flash
    · have hstep : ((t.step env (.request r w)).1).down = true := by
        simp [Service.step, serve_up ht, hhandle, he.mpr hbreaks]
      rw [answers_down _ hstep, eq_comm, answers_lost_iff]
      simp [hdown, hbreaks.1, hbreaks.2]
    · have hstep : (t.step env (.request r w)).1 = { t with flash := r.noted w t.flash } := by
        have hne : e ≠ .wire .panicked := fun heq => hbreaks (he.mp heq)
        simp only [Service.step, serve_up ht, hhandle]
        split
        next heq => cases heq; exact absurd rfl hne
        next => rfl
      have hcond : (t.down = true ∨
          (r.Breaks env.ledger.verifier w ∧ r.Passes w t.flash ∧
            ∀ res, .answer res ∉ answers (Service.step env) t fs) ∨
          (¬ (r.Breaks env.ledger.verifier w ∧ r.Passes w t.flash) ∧
            ∀ a ∈ r.asked, w.flashSet = true ∨ a ∈ t.flash ∨ Shielded env a t fs)) ↔
          ∀ a ∈ r.asked, w.flashSet = true ∨ a ∈ t.flash ∨ Shielded env a t fs := by
        constructor
        · rintro (h | ⟨hb, hp, -⟩ | ⟨-, h⟩)
          · exact absurd h hdown
          · exact absurd ⟨hb, hp⟩ hbreaks
          · exact h
        · exact fun h => Or.inr (Or.inr ⟨hbreaks, h⟩)
      rw [hstep, hcond, Request.noted]
      cases hasked : r.asked with
      | none => simp
      | some a =>
        simp only [Circumstance.notes, Option.mem_some_iff, forall_eq']
        by_cases hset : w.flashSet = true
        · simp [hset]
        · by_cases ha : a ∈ t.flash
          · simp [hset, ha]
          · rw [if_neg hset]
            exact (marked_unseen_iff fs ha).trans (by simp [hset, ha])

open Transparent in
/-- BUG: a balance request that `wallet 8` signs for `wallet 7` keeps `wallet 7` from its balance; and a
    request with a short hash ends the server. -/
theorem unsigned_request_throttles :
    (Request.balance (askFor (wallet 7) (wallet 8))).verified serverEnv.ledger.verifier = false ∧
    answers (Service.step serverEnv) service [.request (.balance (askFor (wallet 7) (wallet 7))) (calmly 5)] =
      [.answer (.ok (.spice ⟨10, 0⟩))] ∧
    answers (Service.step serverEnv) service
        [.request (.balance (askFor (wallet 7) (wallet 8))) (calmly 4),
          .request (.balance (askFor (wallet 7) (wallet 7))) (calmly 5)] =
      [.answer (.error .errVerification), .answer (.error .errThrottle)] ∧
    answers (Service.step serverEnv) service
        [.request (.saved ⟨wallet 7, [], [], []⟩) (calmly 4),
          .request (.balance (askFor (wallet 7) (wallet 7))) (calmly 5)] = [.lost, .lost] := by
  decide +kernel

open Transparent in
/-- A request about another address goes unseen. -/
theorem unsigned_request_unseen :
    (answers (Service.step serverEnv) service
        [.request (.balance (askFor (wallet 9) (wallet 8))) (calmly 4),
          .request (.balance (askFor (wallet 7) (wallet 7))) (calmly 5)]).eraseIdx 0 =
      answers (Service.step serverEnv) service [.request (.balance (askFor (wallet 7) (wallet 7))) (calmly 5)] := by
  have hr : (Request.balance (askFor (wallet 9) (wallet 8))).verified serverEnv.ledger.verifier = false := by
    decide +kernel
  refine (unverified_unseen_iff serverEnv service [] hr (calmly 4) _).mpr (Or.inr (Or.inr ⟨?_, ?_⟩))
  · rintro ⟨⟨-, hlen | ⟨hash, -, hcheck⟩⟩, -⟩
    · revert hlen
      decide +kernel
    · exact verifier_ne_panicked _ _ _ _ hcheck
  · intro a ha
    cases ha
    refine Or.inr (Or.inr (Or.inr (Or.inr ⟨?_, trivial⟩)))
    rintro ⟨hasked, -⟩
    revert hasked
    decide +kernel

end Computantis
