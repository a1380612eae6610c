import Computantis.Laws.Peering
import Computantis.Model.Meeting
import Computantis.Schemes.Roster

/-! @law acquaintance | name:Nodes that have joined know each other | family:invariant | about:Model/Meeting

    The genesis node answers one `Discover` after the other, so its answers put the newcomers in an order, and
    each of them is told of all before it. It then connects to them and announces itself to them. Whatever
    happens in between, when two nodes are through, the later one has connected to the earlier one and has been
    entered there. The table of the genesis node is the roster of the scheme, as long as nobody starts anew; a
    node that does is taken off it.

        peer:  Discover ──────────────────────────────▶ entered by the later one
        later:            Discover ──▶ told of peer ──▶ connects, announces itself -/

namespace Computantis

open Schemes

/-- ASSUMED: members sign with their own addresses and verify one another's signatures, each one listens at its
    URL, and all of them but the genesis node `g` are given the URL of `g`. -/
structure Venue.Honest (V : Venue) (g : Address) : Prop where
  address : ∀ a ∈ V.members, (V.peer a).signer.address = a
  verifies : ∀ a ∈ V.members, ∀ b ∈ V.members, ∀ m, (V.peer b).verifier.verify m ((V.peer a).signer.sign m).2
    ((V.peer a).signer.sign m).1 a = true
  host : ∀ a ∈ V.members, V.host (V.peer a).url = some a
  genesis_mem : g ∈ V.members
  genesis : V.genesisURL g = []
  joins : ∀ a ∈ V.members, a ≠ g → V.genesisURL a = (V.peer g).url
  url : (V.peer g).url ≠ []

theorem Venue.Honest.url_inj {V : Venue} {g a b : Address} (hV : V.Honest g) (ha : a ∈ V.members)
    (hb : b ∈ V.members) (h : (V.peer a).url = (V.peer b).url) : a = b :=
  Option.some_inj.mp ((hV.host a ha).symm.trans (h ▸ hV.host b hb))

theorem Venue.Honest.validate {V : Venue} {g a b x : Address} (hV : V.Honest g) (ha : a ∈ V.members)
    (hb : b ∈ V.members) (now : UInt64) (url : Bytes) :
    let c := PeerTable.connection (V.peer a) now x url
    Hash.ofSlice c.digest = .ok ((V.peer a).signer.sign (initConnectionData x url now)).1 ∧
      validateSignature (V.peer b).verifier a c.publicAddress c.url c.createdAt c.signature
        ((V.peer a).signer.sign (initConnectionData x url now)).1 = .accepted :=
  ⟨Hash.ofSlice_bytes _, Verifier.verify_iff.mp (hV.verifies a ha b hb _)⟩

/-- The genesis node says where a member listens. -/
def ConnectionData.Sound (V : Venue) (g : Address) (c : ConnectionData) : Prop :=
  c.publicAddress ∈ V.members ∧
    c = PeerTable.connection (V.peer g) c.createdAt c.publicAddress (V.peer c.publicAddress).url

namespace Stage

/-- What is left of the answer, with the node that is being called. -/
def pending : Stage → List ConnectionData
  | answered j => j.rest
  | looping j => j.rest
  | calling n j => n :: j.rest
  | _ => []

/-- What the node goes through. -/
def joining : Stage → Option Joining
  | answered j => some j
  | looping j => some j
  | calling _ j => some j
  | _ => none

end Stage

namespace Meeting

/-- Every dial succeeds, and the genesis node does not start anew. -/
def Event.Smooth (g : Address) : Event → Prop
  | .discover _ dials back _ _ _ => dials = true ∧ back = true
  | .advance _ dials => dials = true
  | .announce _ back => back = true
  | .lock _ => True
  | .restart a => a ≠ g

section Turns

variable {V : Venue} {g : Address} {s : Meeting} {again : Prop} {a : Address} {T t : Address → PeerTable}

/-- The table of `a` has the URL of `b`. -/
def Knows (V : Venue) (table : Address → PeerTable) (a b : Address) : Prop :=
  (table a).nodes.lookup b = some (V.peer b).url

/-- `b` has yet to visit `a`. -/
def Todo (stage : Address → Stage) (b a : Address) : Prop := ∃ c ∈ (stage b).pending, c.publicAddress = a

/-- Tables only get entries of members, with their URLs. -/
def Enters (V : Venue) (t T : Address → PeerTable) : Prop :=
  ∀ w, (T w).down = (t w).down ∧ ∀ z, (T w).nodes.lookup z = (t w).nodes.lookup z ∨
    (z ∈ V.members ∧ (T w).nodes.lookup z = some (V.peer z).url)

theorem Enters.refl (t : Address → PeerTable) : Enters V t t := fun _ => ⟨rfl, fun _ => Or.inl rfl⟩

theorem Enters.update {x y : Address} {new : PeerTable} (hy : y ∈ V.members) (hdown : new.down = (t x).down)
    (hentry : new.nodes.lookup y = some (V.peer y).url)
    (hothers : ∀ z, z ≠ y → new.nodes.lookup z = (t x).nodes.lookup z) :
    Enters V t (Function.update t x new) := by
  intro w
  rcases eq_or_ne w x with rfl | hw
  · rw [Function.update_self]
    refine ⟨hdown, fun z => ?_⟩
    rcases eq_or_ne z y with rfl | hz
    · exact Or.inr ⟨hy, hentry⟩
    · exact Or.inl (hothers z hz)
  · rw [Function.update_of_ne hw]
    exact ⟨rfl, fun _ => Or.inl rfl⟩

theorem Enters.knows (h : Enters V t T) {b : Address} (hk : Knows V t a b) :
    Knows V T a b := ((h a).2 b).elim (fun heq => heq.trans hk) And.right

/-- INVERSION: what one step can do; `again` says that a node may start anew. -/
inductive Turn (V : Venue) (g : Address) (again : Prop) (s : Meeting) : Meeting → Prop
  | stays : Turn V g again s s
  | opens : Turn V g again s (s.setStage g .joined)
  | signs {a : Address} {T : Address → PeerTable} {now : UInt64} {conns : List ConnectionData}
      (ha : a ∈ V.members) (hag : a ≠ g) (hidle : s.stage a = .idle) (hT : Enters V s.table T)
      (hnew : Knows V T g a) (hothers : ∀ z, z ≠ a → (T g).nodes.lookup z = (s.table g).nodes.lookup z)
      (hsound : ∀ c ∈ conns, c.Sound V g ∧ (c.publicAddress = g ∨ c.publicAddress ∈ (T g).nodes))
      (hall : ∀ z, z = g ∨ z ∈ (T g).nodes → ∃ c ∈ conns, c.publicAddress = z) :
      Turn V g again s ⟨T, Function.update s.stage a (.answered ⟨g, own V a now, conns⟩)⟩
  | passes {a : Address} {T : Address → PeerTable} {st : Stage} (ha : a ∈ V.members) (hag : a ≠ g)
      (hbegun : s.stage a ≠ .idle) (hidle : st ≠ .idle) (hfailed : st ≠ .failed) (hT : Enters V s.table T)
      (hg : T g = s.table g)
      (hjoin : ∀ j, st.joining = some j → ∃ i, (s.stage a).joining = some i ∧
        j.signerPublicAddress = i.signerPublicAddress ∧ j.own = i.own)
      (hsub : st.pending ⊆ (s.stage a).pending)
      (hdone : ∀ c ∈ (s.stage a).pending, c ∈ st.pending ∨ c.publicAddress = a ∨
        (Knows V T a c.publicAddress ∧ Knows V T c.publicAddress a))
      (hcall : ∀ n j, st = .calling n j →
        Knows V T a n.publicAddress ∧ n.publicAddress ≠ a ∧ n.publicAddress ≠ g) :
      Turn V g again s ⟨T, Function.update s.stage a st⟩
  | restarts {a : Address} (hagain : again) (ha : a ∈ V.members) (hag : a ≠ g) :
      Turn V g again s ((s.setTable a PeerTable.fresh).setStage a .idle)

/-- INVARIANT (any run): who is down has failed, tables name members with their URLs, the answers that nodes go
    through are those of the genesis node, and nodes speak for themselves. -/
structure Upright (V : Venue) (g : Address) (s : Meeting) : Prop where
  down : ∀ a ∈ V.members, (s.table a).down = true → s.stage a = .failed
  entries : ∀ a ∈ V.members, ∀ b u, (s.table a).nodes.lookup b = some u → b ∈ V.members ∧ u = (V.peer b).url
  sound : ∀ a ∈ V.members, ∀ c ∈ (s.stage a).pending, c.Sound V g
  own : ∀ a ∈ V.members, ∀ j, (s.stage a).joining = some j → ∃ now, j.own = Meeting.own V a now

/-- INVARIANT: the members on the roster have asked the genesis node in this order. -/
structure Orderly (V : Venue) (g : Address) (signed : List Address) (s : Meeting) : Prop where
  down : ∀ a ∈ V.members, (s.table a).down = false
  failed : ∀ a ∈ V.members, s.stage a ≠ .failed
  entries : ∀ a ∈ V.members, ∀ b u, (s.table a).nodes.lookup b = some u → b ∈ V.members ∧ u = (V.peer b).url
  genesis : s.stage g = .idle ∨ s.stage g = .joined
  top : g ∈ signed
  member : ∀ a ∈ signed, a ∈ V.members
  begun : ∀ a ∈ V.members, a ≠ g → (a ∈ signed ↔ s.stage a ≠ .idle)
  known : ∀ a ∈ signed, a ≠ g → Knows V s.table g a
  sound : ∀ a ∈ V.members, ∀ c ∈ (s.stage a).pending, c.Sound V g
  own : ∀ a ∈ V.members, ∀ j, (s.stage a).joining = some j → j.signerPublicAddress = g ∧
    ∃ now, j.own = Meeting.own V a now
  called : ∀ a ∈ V.members, ∀ n j, s.stage a = .calling n j →
    Knows V s.table a n.publicAddress ∧ n.publicAddress ≠ a ∧ n.publicAddress ≠ g
  linked : Roster.Linked ⟨signed, Todo s.stage, Knows V s.table⟩

theorem Orderly.upright {signed : List Address} (h : Orderly V g signed s) : Upright V g s where
  down a ha hdown := by
    rw [h.down a ha] at hdown
    cases hdown
  entries := h.entries
  sound := h.sound
  own a ha j hj := (h.own a ha j hj).2

theorem Upright.contact (hV : V.Honest g) (h : Upright V g s) (ha : a ∈ V.members) {n : ConnectionData} {j : Joining}
    (hst : s.stage a = .calling n j) : n.publicAddress ∈ V.members ∧
      V.host n.url = some n.publicAddress ∧ ∃ now, j.own = Meeting.own V a now := by
  obtain ⟨hmem, hconn⟩ := h.sound a ha n (by rw [hst]; exact List.mem_cons_self ..)
  have hurl : n.url = (V.peer n.publicAddress).url := by rw [hconn]; rfl
  exact ⟨hmem, hurl ▸ hV.host _ hmem, h.own a ha j (by rw [hst]; rfl)⟩

/-! ### One step -/

section Inversion

variable {signed : List Address} (hV : V.Honest g) (h : Orderly V g signed s) {a b : Address}

include hV in
theorem own_genuine (ha : a ∈ V.members) (hb : b ∈ V.members) (now : UInt64) :
    (own V a now).Genuine (V.peer b).verifier := by
  have haddr := hV.address a ha
  obtain ⟨hdigest, hsig⟩ := hV.validate (x := a) ha hb now (V.peer a).url
  rw [ConnectionData.Genuine, ConnectionData.validate, own, haddr, hdigest]
  exact congrArg Verdict.returned hsig

include hV h in
theorem call_own (ha : a ∈ V.members) (hb : b ∈ V.members) {r : PeerRequest} {now : UInt64}
    (hr : r.data = own V a now) (hdials : r.dials = true) (hfree : (s.stage b).locked = false) :
    ∃ t, s.call V b r = some (s.setTable b t, ((s.table b).handle (V.peer b) r).2) ∧
      t = ((s.table b).drop a).enter (own V a now) ∧ t = ((s.table b).handle (V.peer b) r).1 := by
  have hgen : r.data.Genuine (V.peer b).verifier := hr ▸ own_genuine hV ha hb now
  have haddr : r.data.publicAddress = a := hr ▸ hV.address a ha
  obtain ⟨reply, hhandle⟩ : ∃ reply, (s.table b).handle (V.peer b) r =
      (((s.table b).drop r.data.publicAddress).enter r.data, .ok reply) := by
    rcases PeerTable.handle_cases (V.peer b) (s.table b) r with ⟨hng, -⟩ | ⟨-, -, hok⟩ | ⟨-, hd, -⟩ | ⟨-, hd, -⟩
    · exact absurd hgen hng
    · exact hok
    · rw [hdials] at hd; cases hd
    · rw [hdials] at hd; cases hd
  rw [haddr, hr] at hhandle
  refine ⟨_, ?_, rfl, by rw [hhandle]⟩
  have hdown := h.down b hb
  rw [call, hdown, hfree, PeerTable.step, hdown, hhandle]
  simp

include hV in
/-- An announcement to a member that holds its lock is kept waiting, whether it could be dialled or not. -/
theorem call_waits (ha : a ∈ V.members) (hb : b ∈ V.members) {cd : ConnectionData} {now : UInt64}
    (hcd : cd = own V a now) (hup : (s.table b).down = false) (hlocked : (s.stage b).locked = true) (back : Bool) :
    s.call V b (.announce cd back) = none := by
  have hgen : cd.validate (V.peer b).verifier = .ok true := hcd ▸ own_genuine hV ha hb now
  have hreach : (PeerRequest.announce cd back).reachesLock (V.peer b).verifier = true := by
    rw [PeerRequest.reachesLock, PeerRequest.data, hgen]
    rfl
  rw [call, hup, hlocked, hreach]
  rfl

include hV in
theorem enters_own (ha : a ∈ V.members) (now : UInt64) :
    let t := ((s.table b).drop a).enter (own V a now)
    Enters V s.table (Function.update s.table b t) ∧ t.nodes.lookup a = some (V.peer a).url ∧
      ∀ z, z ≠ a → t.nodes.lookup z = (s.table b).nodes.lookup z := by
  intro t
  have hnodes : t.nodes = ((s.table b).nodes.erase a).insert a (V.peer a).url :=
    congrArg (fun x => ((s.table b).nodes.erase a).insert x (V.peer a).url) (hV.address a ha)
  have hentry : t.nodes.lookup a = some (V.peer a).url := hnodes ▸ AList.lookup_insert _
  have hothers : ∀ z, z ≠ a → t.nodes.lookup z = (s.table b).nodes.lookup z := fun z hz =>
    hnodes ▸ (AList.lookup_insert_ne hz).trans (AList.lookup_erase_ne hz)
  exact ⟨.update ha rfl hentry hothers, hentry, hothers⟩

include hV in
theorem answer_sound {t : PeerTable} (ht : ∀ b u, t.nodes.lookup b = some u → b ∈ V.members ∧ u = (V.peer b).url)
    (later : UInt64) (order : List Address) :
    let conns := PeerTable.connection (V.peer g) later g (V.peer g).url :: (enumerate order t.nodes.keys).filterMap
      fun a => (t.nodes.lookup a).map (PeerTable.connection (V.peer g) later a)
    (∀ c ∈ conns, c.Sound V g ∧ (c.publicAddress = g ∨ c.publicAddress ∈ t.nodes)) ∧
      ∀ z, z = g ∨ z ∈ t.nodes → ∃ c ∈ conns, c.publicAddress = z := by
  intro conns
  constructor
  · intro c hc
    rcases List.mem_cons.mp hc with rfl | hc
    · exact ⟨⟨hV.genesis_mem, rfl⟩, Or.inl rfl⟩
    · obtain ⟨b, hb, hmap⟩ := List.mem_filterMap.mp hc
      obtain ⟨u, hu, rfl⟩ := Option.map_eq_some_iff.mp hmap
      obtain ⟨hmem, rfl⟩ := ht b u hu
      exact ⟨⟨hmem, rfl⟩, Or.inr (mem_enumerate.mp hb)⟩
  · rintro z (rfl | hz)
    · exact ⟨_, List.mem_cons_self .., rfl⟩
    · obtain ⟨u, hu⟩ := Option.isSome_iff_exists.mp (AList.lookup_isSome.mpr hz)
      refine ⟨PeerTable.connection (V.peer g) later z u, List.mem_cons_of_mem _ ?_, rfl⟩
      exact List.mem_filterMap.mpr ⟨z, mem_enumerate.mpr hz, by rw [hu]; rfl⟩

include hV h in
theorem turn_discover (ha : a ∈ V.members) (hidle : s.stage a = .idle) (now later : UInt64) (order : List Address) :
    Turn V g again s (s.discover V a true true now later order) := by
  rcases eq_or_ne a g with rfl | hag
  · rw [discover, if_pos hV.genesis]
    exact .opens
  · have hurl := hV.joins a ha hag
    have hfree : (s.stage g).locked = false := by
      rcases h.genesis with hst | hst <;> rw [hst] <;> rfl
    obtain ⟨t, hcall, rfl, ht⟩ := call_own (r := .discover (own V a now) true later order) hV h ha
      hV.genesis_mem rfl rfl hfree
    obtain ⟨hT, hentry, hothers⟩ := enters_own (s := s) (b := g) hV ha now
    have hreply : ((s.table g).handle (V.peer g) (.discover (own V a now) true later order)).2 =
        .ok ((((s.table g).drop a).enter (own V a now)).connectedNodes (V.peer g) later order) := by
      have hgen := own_genuine hV ha hV.genesis_mem now
      have haddr : (own V a now).publicAddress = a := hV.address a ha
      rw [ConnectionData.Genuine] at hgen
      rw [PeerTable.handle, PeerTable.discover, hgen, haddr]
      rfl
    rw [discover, if_neg (hurl ▸ hV.url), if_neg (by decide), hurl, hV.host g hV.genesis_mem]
    simp only [hcall, hreply, PeerTable.connectedNodes, hV.address g hV.genesis_mem]
    have htable : ∀ b u, (((s.table g).drop a).enter (own V a now)).nodes.lookup b = some u →
        b ∈ V.members ∧ u = (V.peer b).url := by
      intro b u hu
      rcases eq_or_ne b a with rfl | hb
      · exact ⟨ha, Option.some_inj.mp (hu.symm.trans hentry)⟩
      · exact h.entries g hV.genesis_mem b u (hothers b hb ▸ hu)
    obtain ⟨hsound, hall⟩ := answer_sound hV htable later order
    refine .signs ha hag hidle hT ?_ ?_ ?_ ?_
    · rwa [Knows, setTable_self]
    · rwa [setTable_self]
    · rwa [setTable_self]
    · rwa [setTable_self]

include hV h in
theorem turn_advance (ha : a ∈ V.members) {j : Joining} (hst : s.stage a = .looping j) :
    Turn V g again s (s.advance V a true j) := by
  have hag : a ≠ g := by
    rintro rfl
    rcases h.genesis with hg | hg <;> rw [hst] at hg <;> cases hg
  have hbegun : s.stage a ≠ .idle := by simp [hst]
  have hjoin : (s.stage a).joining = some j := by rw [hst]; rfl
  obtain ⟨hsigner, now, hown⟩ := h.own a ha j hjoin
  have hpending : (s.stage a).pending = j.rest := by rw [hst]; rfl
  rw [advance]
  split
  next hrest =>
    -- the end of the answer
    refine .passes (T := s.table) ha hag hbegun (by simp) (by simp) (.refl _) rfl ?_ ?_ ?_ ?_
    · rintro _ ⟨⟩
    · exact List.nil_subset _
    · rw [hpending, hrest]
      exact fun c hc => absurd hc List.not_mem_nil
    · rintro _ _ ⟨⟩
  next n rest hrest =>
    have hn : n ∈ (s.stage a).pending := by rw [hpending, hrest]; exact List.mem_cons_self ..
    obtain ⟨hmem, hconn⟩ := h.sound a ha n hn
    have hurl : n.url = (V.peer n.publicAddress).url := by rw [hconn]; rfl
    have hnext : ∀ i, some { j with rest } = some i → ∃ i', (s.stage a).joining = some i' ∧
        i.signerPublicAddress = i'.signerPublicAddress ∧ i.own = i'.own := by
      rintro _ ⟨⟩
      exact ⟨j, hjoin, rfl, rfl⟩
    have hsub : rest ⊆ (s.stage a).pending := by
      rw [hpending, hrest]
      exact List.subset_cons_self ..
    dsimp only
    split
    next hself =>
      -- its own entry is left out
      have hna : n.publicAddress = a := by
        rcases hself with hself | hself
        · exact hself.trans (hV.address a ha)
        · exact hV.url_inj hmem ha (hurl.symm.trans hself)
      refine .passes (T := s.table) ha hag hbegun (by simp) (by simp) (.refl _) rfl hnext hsub ?_ ?_
      · rw [hpending, hrest]
        intro c hc
        rcases List.mem_cons.mp hc with rfl | hc
        · exact Or.inr (Or.inl hna)
        · exact Or.inl hc
      · rintro _ _ ⟨⟩
    next hself =>
      have hna : n.publicAddress ≠ a := fun heq => hself (Or.inl (heq.trans (hV.address a ha).symm))
      obtain ⟨hdigest, hsig⟩ := hV.validate (x := n.publicAddress) hV.genesis_mem ha n.createdAt
        (V.peer n.publicAddress).url
      rw [← hconn, ← hsigner] at hdigest hsig
      rw [hdigest]
      simp only [hsig, reduceCtorEq, Bool.true_eq_false, or_self, if_false]
      -- the new entry
      have hentry : ((s.table a).nodes.insert n.publicAddress n.url).lookup n.publicAddress =
          some (V.peer n.publicAddress).url := hurl ▸ AList.lookup_insert _
      have hT : Enters V s.table (Function.update s.table a
          { s.table a with nodes := (s.table a).nodes.insert n.publicAddress n.url }) :=
        .update hmem rfl hentry fun z hz => AList.lookup_insert_ne hz
      have hg : Function.update s.table a
          { s.table a with nodes := (s.table a).nodes.insert n.publicAddress n.url } g = s.table g :=
        Function.update_of_ne hag.symm ..
      have hknows : Knows V (Function.update s.table a
          { s.table a with nodes := (s.table a).nodes.insert n.publicAddress n.url }) a n.publicAddress := by
        rw [Knows, Function.update_self]
        exact hentry
      have hgurl := hV.joins a ha hag
      split
      next hgenesis =>
        -- the genesis node has made its entry before it answered
        have hng : n.publicAddress = g := hV.url_inj hmem hV.genesis_mem (hurl.symm.trans (hgenesis.trans hgurl))
        have hback := hT.knows (h.known a ((h.begun a ha hag).mpr hbegun) hag)
        refine .passes ha hag hbegun (by simp) (by simp) hT hg hnext hsub ?_ ?_
        · rw [hpending, hrest]
          intro c hc
          rcases List.mem_cons.mp hc with rfl | hc
          · exact Or.inr (Or.inr ⟨hknows, hng ▸ hback⟩)
          · exact Or.inl hc
        · rintro _ _ ⟨⟩
      next hgenesis =>
        refine .passes ha hag hbegun (by simp) (by simp) hT hg hnext ?_ ?_ ?_
        · rw [hpending, hrest]
          exact List.Subset.refl _
        · rw [hpending, hrest]
          exact fun c hc => Or.inl hc
        · rintro _ _ ⟨⟩
          refine ⟨hknows, hna, fun hng => hgenesis ?_⟩
          rw [hurl, hng, hgurl]

include hV h in
theorem turn_announce (ha : a ∈ V.members) {n : ConnectionData} {j : Joining} (hst : s.stage a = .calling n j) :
    Turn V g again s (s.announce V a true n j) := by
  have hag : a ≠ g := by
    rintro rfl
    rcases h.genesis with hg | hg <;> rw [hst] at hg <;> cases hg
  have hbegun : s.stage a ≠ .idle := by simp [hst]
  have hpending : (s.stage a).pending = n :: j.rest := by rw [hst]; rfl
  obtain ⟨hmem, hhost, now, hown⟩ := h.upright.contact hV ha hst
  obtain ⟨hknows, hna, hng⟩ := h.called a ha n j hst
  rw [announce, hhost]
  cases hlocked : (s.stage n.publicAddress).locked with
  | true =>
    simp only [call_waits hV ha hmem hown (h.down _ hmem) hlocked]
    exact .stays
  | false =>
    obtain ⟨t, hcall, rfl, ht⟩ := call_own (r := .announce j.own true) hV h ha hmem hown rfl hlocked
    obtain ⟨hT, hentry, hothers⟩ := enters_own (s := s) (b := n.publicAddress) hV ha now
    simp only [hcall]
    have hback : Knows V (Function.update s.table n.publicAddress
        (((s.table n.publicAddress).drop a).enter (own V a now))) n.publicAddress a := by
      rw [Knows, Function.update_self]
      exact hentry
    refine .passes ha hag hbegun (by simp) (by simp) hT (Function.update_of_ne hng.symm ..) ?_ ?_ ?_ ?_
    · rintro _ ⟨⟩
      exact ⟨j, by rw [hst]; rfl, rfl, rfl⟩
    · rw [hpending]
      exact List.subset_cons_self ..
    · rw [hpending]
      intro c hc
      rcases List.mem_cons.mp hc with rfl | hc
      · exact Or.inr (Or.inr ⟨hT.knows hknows, hback⟩)
      · exact Or.inl hc
    · rintro _ _ ⟨⟩

include hV h in
theorem turn {e : Event} (he : e.Smooth g) : Turn V g (∃ a, e = .restart a) s (s.step V e) := by
  rw [step]
  split
  next hmem =>
    cases e with
    | discover a dials back now later order =>
      obtain ⟨rfl, rfl⟩ := he
      rw [act]
      split
      next hidle => exact turn_discover hV h hmem hidle now later order
      next => exact .stays
    | lock a =>
      rw [act]
      split
      next j hst =>
        have hag : a ≠ g := by
          rintro rfl
          rcases h.genesis with hg | hg <;> rw [hst] at hg <;> cases hg
        refine .passes (T := s.table) hmem hag (by simp [hst]) (by simp) (by simp) (.refl _) rfl ?_ ?_ ?_ ?_
        · rintro _ ⟨⟩
          exact ⟨j, by rw [hst]; rfl, rfl, rfl⟩
        · rw [hst]
          exact List.Subset.refl _
        · rw [hst]
          exact fun c hc => Or.inl hc
        · rintro _ _ ⟨⟩
      next => exact .stays
    | advance a dials =>
      obtain rfl : dials = true := he
      rw [act]
      split
      next j hst => exact turn_advance hV h hmem hst
      next => exact .stays
    | announce a back =>
      obtain rfl : back = true := he
      rw [act]
      split
      next n j hst => exact turn_announce hV h hmem hst
      next => exact .stays
    | restart a => exact .restarts ⟨a, rfl⟩ hmem he
  next => exact .stays

end Inversion

/-! ### What a step keeps -/

variable {signed : List Address} {s' : Meeting}

theorem Orderly.entries_of_enters (h : Orderly V g signed s) (hT : Enters V s.table T) {b : Address}
    (ha : a ∈ V.members) {u : Bytes} (hu : (T a).nodes.lookup b = some u) :
    b ∈ V.members ∧ u = (V.peer b).url := by
  rcases (hT a).2 b with heq | ⟨hmem, hentry⟩
  · exact h.entries a ha b u (heq ▸ hu)
  · exact ⟨hmem, Option.some_inj.mp (hu.symm.trans hentry)⟩

theorem Orderly.update (h : Orderly V g signed s) {st : Stage} (hst : s'.stage a = st)
    (hothers : ∀ b, b ≠ a → s'.stage b = s.stage b) (hgenesis : a = g → st = .joined)
    (hbegun : a ≠ g → s.stage a ≠ .idle) (hidle : st ≠ .idle) (hfailed : st ≠ .failed)
    (hT : Enters V s.table s'.table) (hjoin : ∀ j, st.joining = some j → ∃ i, (s.stage a).joining = some i ∧
      j.signerPublicAddress = i.signerPublicAddress ∧ j.own = i.own) (hsub : st.pending ⊆ (s.stage a).pending)
    (hdone : ∀ c ∈ (s.stage a).pending, c ∈ st.pending ∨ c.publicAddress = a ∨
      (Knows V s'.table a c.publicAddress ∧ Knows V s'.table c.publicAddress a)) (hcall : ∀ n j, st = .calling n j →
      Knows V s'.table a n.publicAddress ∧ n.publicAddress ≠ a ∧ n.publicAddress ≠ g) :
    Orderly V g signed s' where
  down b hb := ((hT b).1).trans (h.down b hb)
  failed b hb := by
    rcases eq_or_ne b a with rfl | hba
    · exact hst ▸ hfailed
    · rw [hothers b hba]
      exact h.failed b hb
  entries b hb x u hu := h.entries_of_enters hT hb hu
  genesis := by
    rcases eq_or_ne g a with rfl | hga
    · exact Or.inr (hst.trans (hgenesis rfl))
    · rw [hothers g hga]
      exact h.genesis
  top := h.top
  member := h.member
  begun b hb hbg := by
    rcases eq_or_ne b a with rfl | hba
    · rw [h.begun b hb hbg]
      exact iff_of_true (hbegun hbg) (hst ▸ hidle)
    · rw [hothers b hba]
      exact h.begun b hb hbg
  known b hb hbg := hT.knows (h.known b hb hbg)
  sound b hb c hc := by
    rcases eq_or_ne b a with rfl | hba
    · exact h.sound b hb c (hsub (hst ▸ hc))
    · rw [hothers b hba] at hc
      exact h.sound b hb c hc
  own b hb j hj := by
    rcases eq_or_ne b a with rfl | hba
    · obtain ⟨i, hi, hsigner, hown⟩ := hjoin j (hst ▸ hj)
      rw [hsigner, hown]
      exact h.own b hb i hi
    · rw [hothers b hba] at hj
      exact h.own b hb j hj
  called b hb n j hn := by
    rcases eq_or_ne b a with rfl | hba
    · exact hcall n j (hst ▸ hn)
    · rw [hothers b hba] at hn
      exact (h.called b hb n j hn).imp_left hT.knows
  linked := by
    refine h.linked.goes ⟨List.Sublist.refl _, ?_, fun x b _ _ hk => hT.knows hk⟩
    rintro x b - - hxb ⟨c, hc, rfl⟩
    rcases eq_or_ne b a with rfl | hba
    · rcases hdone c hc with hc' | hself | ⟨hk, hk'⟩
      · exact Or.inl ⟨c, hst ▸ hc', rfl⟩
      · exact absurd hself hxb
      · exact Or.inr ⟨hk', hk⟩
    · exact Or.inl ⟨c, (hothers b hba).symm ▸ hc, rfl⟩

theorem Orderly.sign (h : Orderly V g signed s) {now : UInt64} {conns : List ConnectionData} (ha : a ∈ V.members)
    (hag : a ≠ g) (hidle : s.stage a = .idle) (hothers : ∀ b, b ≠ a → s'.stage b = s.stage b)
    (hst : s'.stage a = .answered ⟨g, Meeting.own V a now, conns⟩) (hT : Enters V s.table s'.table)
    (hnew : Knows V s'.table g a) (hsound : ∀ c ∈ conns, c.Sound V g)
    (hall : ∀ z ∈ signed, ∃ c ∈ conns, c.publicAddress = z) : Orderly V g (signed ++ [a]) s' := by
  have hfresh : a ∉ signed := fun hmem => (h.begun a ha hag).mp hmem hidle
  have hmem : ∀ b, b ∈ signed ++ [a] ↔ b ∈ signed ∨ b = a := by simp
  exact {
    down := fun b hb => ((hT b).1).trans (h.down b hb)
    failed := fun b hb => by
      rcases eq_or_ne b a with rfl | hba
      · simp [hst]
      · rw [hothers b hba]
        exact h.failed b hb
    entries := fun b hb x u hu => h.entries_of_enters hT hb hu
    genesis := by rw [hothers g hag.symm]; exact h.genesis
    top := (hmem g).mpr (Or.inl h.top)
    member := fun b hb => ((hmem b).mp hb).elim (h.member b) fun heq => heq ▸ ha
    begun := fun b hb hbg => by
      rcases eq_or_ne b a with rfl | hba
      · exact iff_of_true ((hmem b).mpr (Or.inr rfl)) (by simp [hst])
      · rw [hothers b hba, hmem, ← h.begun b hb hbg]
        exact or_iff_left hba
    known := fun b hb hbg => by
      rcases (hmem b).mp hb with hb | rfl
      · exact hT.knows (h.known b hb hbg)
      · exact hnew
    sound := fun b hb c hc => by
      rcases eq_or_ne b a with rfl | hba
      · rw [hst] at hc
        exact hsound c hc
      · rw [hothers b hba] at hc
        exact h.sound b hb c hc
    own := fun b hb j hj => by
      rcases eq_or_ne b a with rfl | hba
      · rw [hst] at hj
        obtain rfl := Option.some_inj.mp hj
        exact ⟨rfl, now, rfl⟩
      · rw [hothers b hba] at hj
        exact h.own b hb j hj
    called := fun b hb n j hn => by
      rcases eq_or_ne b a with rfl | hba
      · rw [hst] at hn
        cases hn
      · rw [hothers b hba] at hn
        exact (h.called b hb n j hn).imp_left hT.knows
    linked := by
      refine h.linked.signs hfresh rfl (fun z hz => ?_) (fun z b hb htodo => ?_) fun z b _ _ hk => hT.knows hk
      · obtain ⟨c, hc, hcz⟩ := hall z hz
        exact ⟨c, hst ▸ hc, hcz⟩
      · obtain ⟨c, hc, hcz⟩ := htodo
        exact ⟨c, (hothers b fun heq => hfresh (heq ▸ hb)).symm ▸ hc, hcz⟩ }

theorem Orderly.restart (h : Orderly V g signed s) (hag : a ≠ g) :
    Orderly V g (signed.erase a) ((s.setTable a PeerTable.fresh).setStage a .idle) := by
  have hstage : ∀ b, b ≠ a → ((s.setTable a PeerTable.fresh).setStage a .idle).stage b = s.stage b := fun b hb =>
    Function.update_of_ne hb ..
  have htable : ∀ b, b ≠ a → ((s.setTable a PeerTable.fresh).setStage a .idle).table b = s.table b := fun b hb =>
    Function.update_of_ne hb ..
  have hidle : ((s.setTable a PeerTable.fresh).setStage a .idle).stage a = .idle := setStage_self ..
  have hempty : ((s.setTable a PeerTable.fresh).setStage a .idle).table a = PeerTable.fresh := setTable_self ..
  have hmem : ∀ b, b ∈ signed.erase a ↔ b ≠ a ∧ b ∈ signed := fun b => h.linked.nodup.mem_erase_iff
  have hknows : ∀ b x, b ≠ a → Knows V s.table b x →
      Knows V ((s.setTable a PeerTable.fresh).setStage a .idle).table b x := fun b x hb hk => by
    rwa [Knows, htable b hb]
  exact {
    down := fun b hb => by
      rcases eq_or_ne b a with rfl | hba
      · rw [hempty]; rfl
      · rw [htable b hba]
        exact h.down b hb
    failed := fun b hb => by
      rcases eq_or_ne b a with rfl | hba
      · simp
      · rw [hstage b hba]
        exact h.failed b hb
    entries := fun b hb x u hu => by
      rcases eq_or_ne b a with rfl | hba
      · rw [hempty] at hu
        cases hu
      · rw [htable b hba] at hu
        exact h.entries b hb x u hu
    genesis := by rw [hstage g hag.symm]; exact h.genesis
    top := (hmem g).mpr ⟨hag.symm, h.top⟩
    member := fun b hb => h.member b ((hmem b).mp hb).2
    begun := fun b hb hbg => by
      rcases eq_or_ne b a with rfl | hba
      · simp [hmem]
      · rw [hstage b hba, hmem, h.begun b hb hbg]
        exact and_iff_right hba
    known := fun b hb hbg => hknows g b hag.symm (h.known b ((hmem b).mp hb).2 hbg)
    sound := fun b hb c hc => by
      rcases eq_or_ne b a with rfl | hba
      · rw [hidle] at hc
        cases hc
      · rw [hstage b hba] at hc
        exact h.sound b hb c hc
    own := fun b hb j hj => by
      rcases eq_or_ne b a with rfl | hba
      · rw [hidle] at hj
        cases hj
      · rw [hstage b hba] at hj
        exact h.own b hb j hj
    called := fun b hb n j hn => by
      rcases eq_or_ne b a with rfl | hba
      · rw [hidle] at hn
        cases hn
      · rw [hstage b hba] at hn
        exact (h.called b hb n j hn).imp_left (hknows b _ hba)
    linked := by
      refine h.linked.goes ⟨List.erase_sublist, fun x b _ hb _ htodo => Or.inl ?_, fun x b hx _ hk => ?_⟩
      · obtain ⟨c, hc, hcx⟩ := htodo
        exact ⟨c, (hstage b ((hmem b).mp hb).1).symm ▸ hc, hcx⟩
      · exact hknows x b ((hmem x).mp hx).1 hk }

/-- Without new starts the table of the genesis node is the roster, and everybody has been told of those above. -/
structure Tidy (V : Venue) (g : Address) (signed : List Address) (s : Meeting) : Prop where
  listed : ∀ b ∈ (s.table g).nodes, b ∈ signed
  upward : ∀ b ∈ V.members, ∀ c ∈ (s.stage b).pending, c.publicAddress = b ∨ Above signed c.publicAddress b

theorem Orderly.turn (h : Orderly V g signed s) (ht : Turn V g again s s') :
    ∃ signed', Orderly V g signed' s' ∧ (¬ again → Tidy V g signed s → Tidy V g signed' s') := by
  cases ht with
  | stays => exact ⟨signed, h, fun _ => id⟩
  | opens =>
    have hnone : (s.stage g).pending = [] := by
      rcases h.genesis with hg | hg <;> rw [hg] <;> rfl
    have hothers : ∀ b, b ≠ g → (s.setStage g .joined).stage b = s.stage b := fun b hb => Function.update_of_ne hb ..
    refine ⟨signed, h.update (setStage_self ..) hothers (fun _ => rfl) (fun hne => absurd rfl hne) (by simp) (by simp)
      (.refl _) (by simp [Stage.joining]) (by simp [Stage.pending]) (by simp [hnone]) (by simp), fun _ htidy => ?_⟩
    refine ⟨htidy.listed, fun b hb c hc => ?_⟩
    rcases eq_or_ne b g with rfl | hbg
    · rw [setStage_self] at hc
      cases hc
    · exact htidy.upward b hb c (hothers b hbg ▸ hc)
  | @signs a T now conns ha hag hidle hT hnew hothers hsound hall =>
    have hstage : ∀ b, b ≠ a → Function.update s.stage a (.answered ⟨g, Meeting.own V a now, conns⟩) b = s.stage b :=
      fun b hb => Function.update_of_ne hb ..
    have hlisted : ∀ z ∈ signed, z = g ∨ z ∈ (T g).nodes := by
      intro z hz
      rcases eq_or_ne z g with rfl | hzg
      · exact Or.inl rfl
      · have hk := hT.knows (h.known z hz hzg)
        exact Or.inr (AList.lookup_isSome.mp (Option.isSome_of_eq_some hk))
    refine ⟨signed ++ [a], h.sign ha hag hidle hstage (Function.update_self ..) hT hnew
      (fun c hc => (hsound c hc).1) (fun z hz => hall z (hlisted z hz)), fun _ htidy => ?_⟩
    have htable : ∀ z ∈ (T g).nodes, z ∈ signed ∨ z = a := by
      intro z hz
      rcases eq_or_ne z a with rfl | hza
      · exact Or.inr rfl
      · have hsome := AList.lookup_isSome.mpr hz
        rw [hothers z hza] at hsome
        exact Or.inl (htidy.listed z (AList.lookup_isSome.mp hsome))
    refine ⟨fun z hz => by simpa using htable z hz, fun b hb c hc => ?_⟩
    rw [Above.append_iff]
    rcases eq_or_ne b a with rfl | hba
    · have hself : Function.update s.stage b (.answered ⟨g, Meeting.own V b now, conns⟩) b =
          .answered ⟨g, Meeting.own V b now, conns⟩ := Function.update_self ..
      have hc' : c ∈ (Stage.answered ⟨g, Meeting.own V b now, conns⟩).pending := hself ▸ hc
      rcases (hsound c hc').2 with hcg | hctab
      · exact Or.inr (Or.inr ⟨hcg ▸ h.top, rfl⟩)
      · rcases htable _ hctab with hcs | hcb
        · exact Or.inr (Or.inr ⟨hcs, rfl⟩)
        · exact Or.inl hcb
    · exact (htidy.upward b hb c (hstage b hba ▸ hc)).imp_right Or.inl
  | @passes a T st ha hag hbegun hidle hfailed hT hg hjoin hsub hdone hcall =>
    have hstage : ∀ b, b ≠ a → Function.update s.stage a st b = s.stage b := fun b hb => Function.update_of_ne hb ..
    have hself : Function.update s.stage a st a = st := Function.update_self ..
    refine ⟨signed, h.update hself hstage (fun heq => absurd heq hag) (fun _ => hbegun) hidle hfailed hT hjoin hsub
      hdone hcall, fun _ htidy => ?_⟩
    refine ⟨fun z hz => htidy.listed z (hg ▸ hz), fun b hb c hc => ?_⟩
    rcases eq_or_ne b a with rfl | hba
    · exact htidy.upward b hb c (hsub (hself ▸ hc))
    · exact htidy.upward b hb c (hstage b hba ▸ hc)
  | restarts hagain ha hag => exact ⟨_, h.restart hag, fun hnot => absurd hagain hnot⟩

theorem orderly_opened (hV : V.Honest g) : Orderly V g [g] opened ∧ Tidy V g [g] opened := by
  have hempty : ∀ a b u, (opened.table a).nodes.lookup b ≠ some u := fun _ _ _ => by simp [opened, PeerTable.fresh]
  refine ⟨⟨fun _ _ => rfl, fun _ _ => by simp [opened], fun a _ b u hu => absurd hu (hempty a b u), Or.inl rfl,
    List.mem_singleton_self g, fun a ha => List.mem_singleton.mp ha ▸ hV.genesis_mem, fun a _ hag => ?_,
    fun a ha hag => absurd (List.mem_singleton.mp ha) hag, fun _ _ c hc => absurd hc List.not_mem_nil,
    fun _ _ j hj => ?_, fun _ _ n j hn => ?_, ⟨List.nodup_singleton g, fun a b hab => ?_⟩⟩,
    ⟨fun b hb => ?_, fun _ _ c hc => absurd hc List.not_mem_nil⟩⟩
  · simp [hag, opened]
  · cases hj
  · cases hn
  · exact absurd hab.length_le (by simp)
  · exact absurd hb (AList.notMem_empty b)

/-- RUN: whatever happens smoothly, there is a roster. -/
theorem orderly_run (hV : V.Honest g) {es : List Event} (hes : ∀ e ∈ es, e.Smooth g) :
    ∃ signed, Orderly V g signed (run (step V) opened es) := by
  refine run_invariant_along (P := fun (_ : Meeting) (e : Event) => e.Smooth g)
    (I := fun (t : Meeting) => ∃ signed, Orderly V g signed t) ?_ (along_of_forall hes _)
    ⟨[g], (orderly_opened hV).1⟩
  rintro t e he ⟨signed, h⟩
  exact (h.turn (turn hV h he)).imp fun _ => And.left

theorem tidy_step (hV : V.Honest g) {e : Event} (he : e.Smooth g) (hrestart : ∀ a, e ≠ .restart a)
    (h : ∃ signed, Orderly V g signed s ∧ Tidy V g signed s) :
    ∃ signed, Orderly V g signed (s.step V e) ∧ Tidy V g signed (s.step V e) := by
  obtain ⟨signed, h, htidy⟩ := h
  obtain ⟨signed', h', htidy'⟩ := h.turn (turn hV h he)
  have hnot : ¬ ∃ a, e = .restart a := by
    rintro ⟨a, ha⟩
    exact hrestart a ha
  exact ⟨signed', h', htidy' hnot htidy⟩

/-- The member is the genesis node, or is through with its visits. -/
def Present (g : Address) (s : Meeting) (a : Address) : Prop := a = g ∨ s.stage a = .joined

theorem Orderly.present (h : Orderly V g signed s) (ha : a ∈ V.members) (hp : Present g s a) :
    a ∈ signed ∧ (s.stage a).pending = [] := by
  rcases hp with rfl | hjoined
  · refine ⟨h.top, ?_⟩
    rcases h.genesis with hg | hg <;> rw [hg] <;> rfl
  · rw [hjoined]
    refine ⟨?_, rfl⟩
    rcases eq_or_ne a g with rfl | hag
    · exact h.top
    · rw [h.begun a ha hag, hjoined]
      simp

end Turns

end Meeting

namespace Transparent

/-- A node of the samples listens at the first byte of its address. -/
def portOf (a : Address) : Bytes := a.take 1

/-- Two nodes join at the node `hub`. -/
def square : Venue where
  members := {hub, peer, wallet 4}
  peer a := ⟨verifier, signer a, portOf a⟩
  genesisURL a := if a = hub then [] else portOf hub
  host url := [hub, peer, wallet 4].find? fun a => portOf a = url

theorem honest_square : square.Honest hub where
  address _ _ := rfl
  verifies a _ b _ m := by simp [square, verifier_verify, signer]
  host := by decide
  genesis_mem := by decide
  genesis := rfl
  joins a _ ha := if_neg ha
  url := by decide

/-- Both have asked, first `peer` and then `wallet 4`, and both hold their locks. -/
def bothAsked : List Meeting.Event :=
  [.discover peer true true 1 2 [], .discover (wallet 4) true true 3 4 [], .lock peer, .lock (wallet 4)]

/-- The loop of the node at `a`, with `n` turns. -/
def loops (a : Address) (n : ℕ) : List Meeting.Event := List.replicate n (.advance a true)

/-- `wallet 4` has come to `peer`, which has not left its loop. -/
def oneWaits : List Meeting.Event := bothAsked ++ loops (wallet 4) 3

/-- Both are through. -/
def bothJoined : List Meeting.Event := oneWaits ++ loops peer 3 ++ [.announce (wallet 4) true] ++ loops (wallet 4) 1

/-- They start anew at the same time and come to each other. -/
def bothAgain : List Meeting.Event :=
  bothJoined ++ [.restart peer, .restart (wallet 4)] ++ bothAsked ++ loops peer 3 ++ loops (wallet 4) 3

theorem smooth_bothJoined : ∀ e ∈ bothJoined, e.Smooth hub := by
  simp [bothJoined, oneWaits, bothAsked, loops, Meeting.Event.Smooth]

end Transparent

open Meeting in
/-- VERDICT (agreement): however many nodes join at the same time and start anew in between, if every dial
    succeeds and the genesis node does not start anew, then any two members that are through know each other's
    URL, and no member's table ever names anybody but members, or a wrong URL. -/
theorem members_acquainted {V : Venue} {g : Address} (hV : V.Honest g) {es : List Meeting.Event}
    (hes : ∀ e ∈ es, e.Smooth g) :
    let s := run (Meeting.step V) opened es
    (∀ a ∈ V.members, ∀ b ∈ V.members, a ≠ b → Present g s a → Present g s b →
      (s.table a).nodes.lookup b = some (V.peer b).url) ∧
    ∀ a ∈ V.members, ∀ b u, (s.table a).nodes.lookup b = some u → b ∈ V.members ∧ u = (V.peer b).url := by
  intro s
  obtain ⟨signed, h⟩ := orderly_run hV hes
  refine ⟨fun a ha b hb hne hpa hpb => ?_, h.entries⟩
  obtain ⟨hsa, hna⟩ := h.present ha hpa
  obtain ⟨hsb, hnb⟩ := h.present hb hpb
  refine h.linked.acquainted hsa hsb hne ?_ ?_
  · rintro ⟨c, hc, -⟩
    exact absurd (hna ▸ hc) List.not_mem_nil
  · rintro ⟨c, hc, -⟩
    exact absurd (hnb ▸ hc) List.not_mem_nil

open Transparent in
/-- The law at two nodes that join at the same time. -/
theorem both_acquainted :
    let s := run (Meeting.step square) Meeting.opened bothJoined
    (s.table peer).nodes.lookup (wallet 4) = some [4] ∧ (s.table (wallet 4)).nodes.lookup peer = some [3] := by
  have hpeer : (run (Meeting.step square) Meeting.opened bothJoined).stage peer = .joined := by decide +kernel
  have hlate : (run (Meeting.step square) Meeting.opened bothJoined).stage (wallet 4) = .joined := by
    decide +kernel
  have hlaw := (members_acquainted honest_square smooth_bothJoined).1
  exact ⟨hlaw peer (by decide) (wallet 4) (by decide) (by decide) (Or.inr hpeer) (Or.inr hlate),
    hlaw (wallet 4) (by decide) peer (by decide) (by decide) (Or.inr hlate) (Or.inr hpeer)⟩

end Computantis
