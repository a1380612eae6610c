import Computantis.Laws.Failing
import Computantis.Laws.Panicking
import Computantis.Model.Gossip

/-! @law gossiping | name:Forged messages and genuine ones | family:noninterference | about:Model/Gossip

    A node asks the flash memory about a hash before it has verified anything, and asking is what puts the
    hash there. So a forged message is refused, and the genuine one with the same hash is then taken for a
    copy. A message with a digest that is too short, or with an address over which `Verify` panics, goes
    further: it ends the process. -/

namespace Computantis

open Schemes

/-! ### Gossipers that verify -/

section Gossipers

variable {v : Verifier} {hash : Hash} {gs : List ProtoGossiper} {g m : ProtoGossiper} {m' : Gossipers}

/-- The signature of the gossiper is good for the hash. -/
def ProtoGossiper.Verifies (v : Verifier) (hash : Hash) (m : ProtoGossiper) : Prop :=
  ∃ digest, Hash.ofSlice m.digest = .ok digest ∧
    v.verify (createGossiperMessageToSign m.address hash) m.signature digest m.address = true

/-- The loop panics over the gossiper: the digest is too short for an array, or `Verify` panics. -/
def ProtoGossiper.Panics (v : Verifier) (hash : Hash) (m : ProtoGossiper) : Prop :=
  v.Breaks (createGossiperMessageToSign m.address hash) m.signature m.digest m.address

/-- The loop panics over some gossiper. -/
def Breaking (v : Verifier) (hash : Hash) (gs : List ProtoGossiper) : Prop := ∃ m ∈ gs, m.Panics v hash

theorem ProtoGossiper.verifies_iff {digest : Hash} (hd : Hash.ofSlice m.digest = .ok digest) :
    m.Verifies v hash ↔
      v.check (createGossiperMessageToSign m.address hash) m.signature digest m.address = .accepted := by
  simp [Verifies, hd, Verifier.verify_iff]

theorem ProtoGossiper.Verifies.not_panics (h : m.Verifies v hash) : ¬ m.Panics v hash := by
  obtain ⟨digest, hd, hv⟩ := h
  rw [Panics, Verifier.breaks_iff hd]
  exact Verifier.check_ne_panicked hv

theorem verifyGossipers_panics (h : Breaking v hash gs) : ∀ m : Gossipers,
    verifyGossipers v hash gs m = .error .panicked := by
  induction gs with
  | nil =>
    obtain ⟨m, hm, -⟩ := h
    cases hm
  | cons g gs ih =>
    intro m
    rw [verifyGossipers]
    by_cases hg : g.digest.length < 32
    · rw [Hash.ofSlice_short hg]
    · obtain ⟨digest, hdigest⟩ := Hash.ofSlice_long hg
      simp only [hdigest]
      cases hcheck : v.check (createGossiperMessageToSign g.address hash) g.signature digest g.address with
      | panicked => rfl
      | accepted | refused =>
        have hrest : Breaking v hash gs := by
          obtain ⟨k, hk, hpanics⟩ := h
          rcases List.mem_cons.mp hk with rfl | hk
          · rw [ProtoGossiper.Panics, Verifier.breaks_iff hdigest, hcheck] at hpanics
            cases hpanics
          · exact ⟨k, hk, hpanics⟩
        exact ih hrest _

/-- What the map of verified gossipers holds: who verifies, and whom it held before. -/
structure Gathered (v : Verifier) (hash : Hash) (gs : List ProtoGossiper) (m m' : Gossipers) : Prop where
  mem : ∀ a, a ∈ m' ↔ a ∈ m ∨ ∃ g ∈ gs, g.address = a ∧ g.Verifies v hash
  get : ∀ a g, m'.lookup a = some g → m.lookup a = some g ∨ g ∈ gs ∧ g.address = a ∧ g.Verifies v hash

theorem Gathered.cons_verified {m : Gossipers} (hg : g.Verifies v hash)
    (h : Gathered v hash gs (m.insert g.address g) m') : Gathered v hash (g :: gs) m m' where
  mem a := by
    rw [h.mem, AList.mem_insert]
    constructor
    · rintro ((rfl | ha) | ⟨k, hk, ha⟩)
      · exact Or.inr ⟨g, List.mem_cons_self .., rfl, hg⟩
      · exact Or.inl ha
      · exact Or.inr ⟨k, List.mem_cons_of_mem _ hk, ha⟩
    · rintro (ha | ⟨k, hk, ha, hv⟩)
      · exact Or.inl (Or.inr ha)
      · rcases List.mem_cons.mp hk with rfl | hk
        · exact Or.inl (Or.inl ha.symm)
        · exact Or.inr ⟨k, hk, ha, hv⟩
  get a k hk := by
    rcases h.get a k hk with hk | ⟨hk, ha⟩
    · by_cases ha : a = g.address
      · subst ha
        rw [AList.lookup_insert] at hk
        cases hk
        exact Or.inr ⟨List.mem_cons_self .., rfl, hg⟩
      · rw [AList.lookup_insert_ne ha] at hk
        exact Or.inl hk
    · exact Or.inr ⟨List.mem_cons_of_mem _ hk, ha⟩

theorem Gathered.cons_skipped {m : Gossipers} (hg : ¬ g.Verifies v hash) (h : Gathered v hash gs m m') :
    Gathered v hash (g :: gs) m m' where
  mem a := by
    rw [h.mem]
    refine or_congr_right ⟨?_, ?_⟩
    · rintro ⟨k, hk, ha⟩
      exact ⟨k, List.mem_cons_of_mem _ hk, ha⟩
    · rintro ⟨k, hk, ha, hv⟩
      rcases List.mem_cons.mp hk with rfl | hk
      · exact absurd hv hg
      · exact ⟨k, hk, ha, hv⟩
  get a k hk := (h.get a k hk).imp_right fun ⟨hk, ha⟩ => ⟨List.mem_cons_of_mem _ hk, ha⟩

theorem verifyGossipers_ok (v : Verifier) (hash : Hash) (h : ¬ Breaking v hash gs) : ∀ m : Gossipers,
    ∃ m', verifyGossipers v hash gs m = .ok m' ∧ Gathered v hash gs m m' := by
  induction gs with
  | nil => exact fun m => ⟨m, rfl, by simp, fun _ _ hg => Or.inl hg⟩
  | cons g gs ih =>
    intro m
    have hrest : ¬ Breaking v hash gs := fun ⟨k, hk, hpanics⟩ => h ⟨k, List.mem_cons_of_mem _ hk, hpanics⟩
    have hgood : ¬ g.Panics v hash := fun hpanics => h ⟨g, List.mem_cons_self .., hpanics⟩
    obtain ⟨digest, hdigest⟩ : ∃ digest, Hash.ofSlice g.digest = .ok digest :=
      Hash.ofSlice_long fun hshort => hgood (Or.inl hshort)
    have hverifies : g.Verifies v hash ↔ _ := ProtoGossiper.verifies_iff hdigest
    simp only [verifyGossipers, hdigest]
    cases hcheck : v.check (createGossiperMessageToSign g.address hash) g.signature digest g.address with
    | accepted =>
      obtain ⟨m', hm', hgathered⟩ := ih hrest (m.insert g.address g)
      exact ⟨m', hm', hgathered.cons_verified (hverifies.mpr hcheck)⟩
    | refused =>
      obtain ⟨m', hm', hgathered⟩ := ih hrest m
      refine ⟨m', hm', hgathered.cons_skipped fun hv => ?_⟩
      rw [hverifies, hcheck] at hv
      cases hv
    | panicked => exact absurd ((Verifier.breaks_iff hdigest).mpr hcheck) hgood

end Gossipers

/-! ### The flash memory in front -/

section Flash

variable (c : GossipMeets) (g : GossipNode) (hash : Bytes)
  {answer : GossipNode → GossipNode × List Forward × Except GossipError Unit}

/-- The flash memory knows the hash, and says so. -/
def Known (c : GossipMeets) (flash : Flashback) (hash : Bytes) : Prop :=
  hash.length = 32 ∧ hash ∈ flash ∧ c.flashGet = false

/-- What it holds after it has been asked. -/
def GossipMeets.notes (c : GossipMeets) (flash : Flashback) (hash : Bytes) : Flashback :=
  if hash.length ≠ 32 ∨ c.flashSet = true then flash else insert hash flash

theorem unlessSeen_known (h : Known c g.flash hash) :
    g.unlessSeen c hash answer = ({ g with flash := c.notes g.flash hash }, [], .ok ()) := by
  obtain ⟨hlen, hmem, hget⟩ := h
  simp only [GossipNode.unlessSeen, Flashback.hasHash, Flashback.has, GossipMeets.notes, hlen, hget, hmem,
    ne_eq, not_true_eq_false, if_false, false_or, decide_true, Bool.false_eq_true]

theorem unlessSeen_unknown (h : ¬ Known c g.flash hash) :
    g.unlessSeen c hash answer = answer { g with flash := c.notes g.flash hash } := by
  unfold GossipNode.unlessSeen Flashback.hasHash Flashback.has GossipMeets.notes
  by_cases hlen : hash.length = 32
  · by_cases hget : c.flashGet = true
    · simp [hlen, hget]
    · have hmem : hash ∉ g.flash := fun hmem => h ⟨hlen, hmem, by simpa using hget⟩
      simp [hlen, hget, hmem]
  · simp [hlen]

/-- One question makes the flash memory take the next one with the same hash for a copy. -/
def Marks (c c' : GossipMeets) (hash : Bytes) : Prop :=
  hash.length = 32 ∧ c.flashSet = false ∧ c'.flashGet = false

theorem known_notes (c c' : GossipMeets) (flash : Flashback) :
    Known c' (c.notes flash hash) hash ↔ Known c' flash hash ∨ Marks c c' hash := by
  unfold Known GossipMeets.notes Marks
  by_cases hlen : hash.length = 32 <;> by_cases hset : c.flashSet = true <;>
    by_cases hget : c'.flashGet = true <;> simp [hlen, hset, hget]

end Flash

/-! ### One handler -/

section Handler

variable {env : ServerEnv} {c : GossipMeets} {g : GossipNode} {hash : Bytes} {h : Hash} {gs : List ProtoGossiper}
  {process : GossipNode → GossipNode × Except GossipError Unit} {wrap : List ProtoGossiper → GossipMsg}

/-- The node is among the gossipers that verify. -/
def Signed (env : ServerEnv) (hash : Hash) (gs : List ProtoGossiper) : Prop :=
  ∃ m ∈ gs, m.address = env.ledger.signer.address ∧ m.Verifies env.ledger.verifier hash

/-- The map of the gossipers that verify. -/
def gossipersOf (env : ServerEnv) (hash : Hash) (gs : List ProtoGossiper) : Gossipers :=
  (verifyGossipers env.ledger.verifier hash gs ∅).toOption.getD ∅

/-- What a node sends on that has taken the item. -/
def forwardsOf (env : ServerEnv) (c : GossipMeets) (nodes : GossipNode) (hash : Hash) (gs : List ProtoGossiper)
    (wrap : List ProtoGossiper → GossipMsg) : List Forward :=
  let set := (gossipersOf env hash gs).insert env.ledger.signer.address (env.ledger.signer.gossiper hash)
  (nodes.others c set).map fun a => (a, wrap (toSlice c.slice set))

theorem gossipersOf_spec (env : ServerEnv) (hash : Hash) (ht : ¬ Breaking env.ledger.verifier hash gs) :
    verifyGossipers env.ledger.verifier hash gs ∅ = .ok (gossipersOf env hash gs) ∧
      Gathered env.ledger.verifier hash gs ∅ (gossipersOf env hash gs) := by
  obtain ⟨m, hm, hgathered⟩ := verifyGossipers_ok env.ledger.verifier hash ht ∅
  have heq : gossipersOf env hash gs = m := by
    rw [gossipersOf, hm]
    rfl
  rw [heq]
  exact ⟨hm, hgathered⟩

theorem signed_iff (env : ServerEnv) (hash : Hash) (ht : ¬ Breaking env.ledger.verifier hash gs) :
    env.ledger.signer.address ∈ gossipersOf env hash gs ↔ Signed env hash gs := by
  rw [(gossipersOf_spec env hash ht).2.mem]
  simp [Signed]

/-- SPEC (`spread`): a gossiper that panics ends it, a signature of the node itself ends it, and otherwise the item
    is processed and sent on if that works. -/
theorem spread_breaking (hh : Hash.ofSlice hash = .ok h) (ht : Breaking env.ledger.verifier h gs) :
    g.spread env c hash gs process wrap = (g, [], .error (.wire .panicked)) := by
  simp only [GossipNode.spread, hh, verifyGossipers_panics ht]

theorem spread_signed (hh : Hash.ofSlice hash = .ok h) (ht : ¬ Breaking env.ledger.verifier h gs)
    (hs : Signed env h gs) :
    g.spread env c hash gs process wrap = (g, [], .ok ()) := by
  simp only [GossipNode.spread, hh, (gossipersOf_spec env h ht).1, if_pos ((signed_iff env h ht).mpr hs)]

theorem spread_error (hh : Hash.ofSlice hash = .ok h) (ht : ¬ Breaking env.ledger.verifier h gs)
    (hs : ¬ Signed env h gs) {g' : GossipNode} {e : GossipError} (hp : process g = (g', .error e)) :
    g.spread env c hash gs process wrap = (g', [], .error e) := by
  simp only [GossipNode.spread, hh, (gossipersOf_spec env h ht).1, if_neg (fun hm => hs ((signed_iff env h ht).mp hm)),
    hp]

theorem spread_ok (hh : Hash.ofSlice hash = .ok h) (ht : ¬ Breaking env.ledger.verifier h gs)
    (hs : ¬ Signed env h gs) {g' : GossipNode} (hp : process g = (g', .ok ())) :
    g.spread env c hash gs process wrap = (g', forwardsOf env c g' h gs wrap, .ok ()) := by
  simp only [GossipNode.spread, hh, (gossipersOf_spec env h ht).1, if_neg (fun hm => hs ((signed_iff env h ht).mp hm)),
    hp]
  rfl

end Handler

/-! ### Two messages with one hash -/

section Two

variable {env : ServerEnv} {c c' : GossipMeets} {g g' : GossipNode} {hash : Bytes} {h : Hash}
  {gs gs' : List ProtoGossiper} {process process' : GossipNode → GossipNode × Except GossipError Unit}
  {wrap wrap' : List ProtoGossiper → GossipMsg} {e : GossipError}

/-- What both handlers do with a message that is not empty. -/
def GossipNode.handler (env : ServerEnv) (c : GossipMeets) (hash : Bytes) (gs : List ProtoGossiper)
    (process : GossipNode → GossipNode × Except GossipError Unit) (wrap : List ProtoGossiper → GossipMsg) :
    GossipNode → GossipNode × List Forward × Except GossipError Unit :=
  fun g => g.unlessSeen c hash fun g => g.spread env c hash gs process wrap

/-- The message ends the process: it is not taken for a copy, and the loop over its gossipers panics, or
    processing the item does. -/
def Kills (env : ServerEnv) (c : GossipMeets) (flash : Flashback) (hash : Bytes) (h : Hash) (gs : List ProtoGossiper)
    (panics : Prop) : Prop :=
  ¬ Known c flash hash ∧ (Breaking env.ledger.verifier h gs ∨ ¬ Signed env h gs ∧ panics)

/-- The process refuses the item and leaves the node as it is. -/
def Refuses (process : GossipNode → GossipNode × Except GossipError Unit) (g : GossipNode) (e : GossipError) : Prop :=
  ∀ flash, process { g with flash } = ({ g with flash }, .error e)

/-- The process takes the item, without a look at the flash memory. -/
def Accepts (process : GossipNode → GossipNode × Except GossipError Unit) (g g' : GossipNode) : Prop :=
  ∀ flash, process { g with flash } = ({ g' with flash }, .ok ())

theorem inProcess_refused (env : ServerEnv) (c : GossipMeets) (gs : List ProtoGossiper)
    (wrap : List ProtoGossiper → GossipMsg) (hup : g.down = false) (hh : Hash.ofSlice hash = .ok h)
    (hp : Refuses process g e) :
    ∃ down, g.inProcess (GossipNode.handler env c hash gs process wrap) =
      ({ g with flash := c.notes g.flash hash, down }, []) ∧
        (down = true ↔ Kills env c g.flash hash h gs (e = .wire .panicked)) := by
  unfold GossipNode.inProcess GossipNode.handler Kills
  simp only [hup, Bool.false_eq_true, if_false]
  by_cases hknown : Known c g.flash hash
  · exact ⟨false, by simp [unlessSeen_known c g hash hknown, ← hup], by simp [hknown]⟩
  simp only [unlessSeen_unknown c g hash hknown, hknown, not_false_eq_true, true_and]
  by_cases ht : Breaking env.ledger.verifier h gs
  · exact ⟨true, by simp [spread_breaking hh ht], by simp [ht]⟩
  by_cases hs : Signed env h gs
  · exact ⟨false, by simp [spread_signed hh ht hs, ← hup], by simp [ht, hs]⟩
  simp only [spread_error hh ht hs (hp _), ht, hs, false_or, not_false_eq_true, true_and]
  by_cases he : e = .wire .panicked
  · subst he
    exact ⟨true, rfl, by simp⟩
  · refine ⟨false, ?_, by simp [he]⟩
    rw [← hup]
    split
    next heq =>
      cases heq
      exact absurd rfl he
    next heq =>
      cases heq
      rfl

/-- The message is not processed. -/
def Passive (env : ServerEnv) (c : GossipMeets) (flash : Flashback) (hash : Bytes) (h : Hash)
    (gs : List ProtoGossiper) : Prop :=
  Known c flash hash ∨ Breaking env.ledger.verifier h gs ∨ Signed env h gs

/-- What a node has, and what it has sent. -/
structure Ends (r : GossipNode × List Forward) (book : Book) (cache : BigCache) (forwards : List Forward) : Prop where
  book : r.1.book = book
  cache : r.1.cache = cache
  forwards : r.2 = forwards

/-- The node is gone, or does not process the message. -/
def Dormant (env : ServerEnv) (c : GossipMeets) (g : GossipNode) (hash : Bytes) (h : Hash)
    (gs : List ProtoGossiper) : Prop :=
  g.down = true ∨ Passive env c g.flash hash h gs

theorem inProcess_dormant (hh : Hash.ofSlice hash = .ok h) (hdormant : Dormant env c g hash h gs) :
    Ends (g.inProcess (GossipNode.handler env c hash gs process wrap)) g.book g.cache [] := by
  unfold GossipNode.inProcess GossipNode.handler
  by_cases hdown : g.down = true
  · rw [if_pos hdown]
    exact ⟨rfl, rfl, rfl⟩
  rw [if_neg hdown]
  have hpassive := hdormant.resolve_left hdown
  by_cases hknown : Known c g.flash hash
  · rw [unlessSeen_known c g hash hknown]
    exact ⟨rfl, rfl, rfl⟩
  rw [unlessSeen_unknown c g hash hknown]
  by_cases ht : Breaking env.ledger.verifier h gs
  · rw [spread_breaking hh ht]
    exact ⟨rfl, rfl, rfl⟩
  · have hs : Signed env h gs := (hpassive.resolve_left hknown).resolve_left ht
    rw [spread_signed hh ht hs]
    exact ⟨rfl, rfl, rfl⟩

theorem inProcess_accepted (wrap : List ProtoGossiper → GossipMsg) (hh : Hash.ofSlice hash = .ok h)
    (hactive : ¬ Dormant env c g hash h gs) (hp : Accepts process g g') :
    Ends (g.inProcess (GossipNode.handler env c hash gs process wrap)) g'.book g'.cache
      (forwardsOf env c g' h gs wrap) := by
  obtain ⟨hup, hactive⟩ := not_or.mp hactive
  obtain ⟨hknown, hactive⟩ := not_or.mp hactive
  obtain ⟨ht, hs⟩ := not_or.mp hactive
  unfold GossipNode.inProcess GossipNode.handler
  rw [if_neg hup, unlessSeen_unknown c g hash hknown, spread_ok hh ht hs (hp _)]
  exact ⟨rfl, rfl, rfl⟩

/-- CONDITION: the node is down, or would not process the second message anyway; or the first message neither
    ends the process nor leaves a mark that the second one meets. -/
def Unhindered (env : ServerEnv) (c c' : GossipMeets) (g : GossipNode) (hash : Bytes) (h : Hash)
    (gs gs' : List ProtoGossiper) (panics : Prop) : Prop :=
  g.down = true ∨ Passive env c' g.flash hash h gs' ∨
    ¬ Kills env c g.flash hash h gs panics ∧ ¬ Marks c c' hash

/-- SPEC (refused message), for a node that may be down: nothing but the flash memory and the process is
    touched, and nothing is sent. -/
theorem inProcess_refused_eq (env : ServerEnv) (c : GossipMeets) (gs : List ProtoGossiper)
    (wrap : List ProtoGossiper → GossipMsg) (hh : Hash.ofSlice hash = .ok h) (hp : Refuses process g e) :
    ∃ flash down, g.inProcess (GossipNode.handler env c hash gs process wrap) = ({ g with flash, down }, []) := by
  by_cases hdown : g.down = true
  · exact ⟨g.flash, g.down, by rw [GossipNode.inProcess, if_pos hdown]⟩
  · obtain ⟨down, hfirst, -⟩ := inProcess_refused env c gs wrap (by simpa using hdown) hh hp
    exact ⟨_, down, hfirst⟩

/-- What the refused message does to the second one: the node is dormant for it then, if it was so before, if
    the process has ended, or if the hash is marked. -/
theorem dormant_after (env : ServerEnv) (c c' : GossipMeets) (gs gs' : List ProtoGossiper)
    (wrap : List ProtoGossiper → GossipMsg) (hh : Hash.ofSlice hash = .ok h) (hp : Refuses process g e) :
    Dormant env c' (g.inProcess (GossipNode.handler env c hash gs process wrap)).1 hash h gs' ↔
      Dormant env c' g hash h gs' ∨ Kills env c g.flash hash h gs (e = .wire .panicked) ∨ Marks c c' hash := by
  by_cases hdown : g.down = true
  · rw [GossipNode.inProcess, if_pos hdown]
    exact iff_of_true (Or.inl hdown) (Or.inl (Or.inl hdown))
  obtain ⟨down, hfirst, hkills⟩ := inProcess_refused env c gs wrap (by simpa using hdown) hh hp
  rw [hfirst, ← hkills, Dormant, Dormant, Passive, Passive, known_notes]
  constructor
  · rintro (hdown' | (hknown | hmarks) | hrest)
    · exact Or.inr (Or.inl hdown')
    · exact Or.inl (Or.inr (Or.inl hknown))
    · exact Or.inr (Or.inr hmarks)
    · exact Or.inl (Or.inr (Or.inr hrest))
  · rintro ((hbefore | hknown | hrest) | hdown' | hmarks)
    · exact absurd hbefore hdown
    · exact Or.inr (Or.inl (Or.inl hknown))
    · exact Or.inr (Or.inr hrest)
    · exact Or.inl hdown'
    · exact Or.inr (Or.inl (Or.inr hmarks))

/-- VERDICT (two messages): the first is refused and the second acceptable. If the node is unhindered, the
    two end like the second alone; otherwise they do nothing, and the second alone is accepted. -/
theorem two_messages {panics : Prop} (env : ServerEnv) (c c' : GossipMeets) (gs gs' : List ProtoGossiper)
    (wrap wrap' : List ProtoGossiper → GossipMsg) (hh : Hash.ofSlice hash = .ok h) (hp : Refuses process g e)
    (he : e = .wire .panicked ↔ panics) (hp' : Accepts process' g g') :
    (Unhindered env c c' g hash h gs gs' panics ∧ ∃ book cache forwards,
      Ends (g.inProcess (GossipNode.handler env c' hash gs' process' wrap')) book cache forwards ∧
      Ends ((g.inProcess (GossipNode.handler env c hash gs process wrap)).1.inProcess
        (GossipNode.handler env c' hash gs' process' wrap')) book cache forwards) ∨
    (¬ Unhindered env c c' g hash h gs gs' panics ∧
      Ends (g.inProcess (GossipNode.handler env c' hash gs' process' wrap')) g'.book g'.cache
        (forwardsOf env c' g' h gs' wrap') ∧
      Ends ((g.inProcess (GossipNode.handler env c hash gs process wrap)).1.inProcess
        (GossipNode.handler env c' hash gs' process' wrap')) g.book g.cache []) := by
  have hafter := dormant_after env c c' gs gs' wrap hh hp
  obtain ⟨flash, down, hfirst⟩ := inProcess_refused_eq env c gs wrap hh hp
  have hfree : Unhindered env c c' g hash h gs gs' panics ↔ Dormant env c' g hash h gs' ∨
      ¬ (Kills env c g.flash hash h gs (e = .wire .panicked) ∨ Marks c c' hash) := by
    rw [Unhindered, ← or_assoc, not_or, he]
    rfl
  rw [hfirst] at hafter ⊢
  rw [hfree]
  by_cases hdormant : Dormant env c' g hash h gs'
  · -- the second message is not processed, neither alone nor now
    refine Or.inl ⟨Or.inl hdormant, g.book, g.cache, [], inProcess_dormant hh hdormant, ?_⟩
    exact inProcess_dormant (g := { g with flash, down }) hh (hafter.mpr (Or.inl hdormant))
  · rw [or_iff_right hdormant] at hafter ⊢
    have halone := inProcess_accepted wrap' hh hdormant hp'
    by_cases hthen : Dormant env c' { g with flash, down } hash h gs'
    · exact Or.inr ⟨not_not.mpr (hafter.mp hthen), halone, inProcess_dormant (g := { g with flash, down }) hh hthen⟩
    · -- both are up, so the process takes the item from either of them
      refine Or.inl ⟨fun hbad => hthen (hafter.mpr hbad), _, _, _, halone, ?_⟩
      have hup : g.down = false := Bool.eq_false_iff.mpr fun hd => hdormant (Or.inl hd)
      have hup' : down = false := Bool.eq_false_iff.mpr fun hd => hthen (Or.inl hd)
      obtain rfl : down = g.down := hup'.trans hup.symm
      exact inProcess_accepted (g := { g with flash }) wrap' hh hthen fun flash => hp' flash

/-- EXACT (two messages): what they leave and send is what the second alone leaves and sends, exactly when the
    node is unhindered or taking the item makes no difference. -/
theorem same_iff {panics : Prop} {α : Type} (view : Book → BigCache → α) (env : ServerEnv) (c c' : GossipMeets)
    (gs gs' : List ProtoGossiper) (wrap wrap' : List ProtoGossiper → GossipMsg) (hh : Hash.ofSlice hash = .ok h)
    (hp : Refuses process g e) (he : e = .wire .panicked ↔ panics) (hp' : Accepts process' g g') :
    let first := g.inProcess (GossipNode.handler env c hash gs process wrap)
    let second := first.1.inProcess (GossipNode.handler env c' hash gs' process' wrap')
    let alone := g.inProcess (GossipNode.handler env c' hash gs' process' wrap')
    (view second.1.book second.1.cache = view alone.1.book alone.1.cache ∧ first.2 ++ second.2 = alone.2 ↔
      Unhindered env c c' g hash h gs gs' panics ∨
        view g.book g.cache = view g'.book g'.cache ∧ forwardsOf env c' g' h gs' wrap' = []) := by
  intro first second alone
  have hsilent : first.2 = [] := by
    obtain ⟨flash, down, hfirst⟩ := inProcess_refused_eq env c gs wrap hh hp
    rw [show first = ({ g with flash, down }, []) from hfirst]
  rw [hsilent, List.nil_append]
  rcases two_messages env c c' gs gs' wrap wrap' hh hp he hp' with
    ⟨hfree, book, cache, forwards, halone, hsecond⟩ | ⟨hnot, halone, hsecond⟩
  · refine iff_of_true ⟨?_, ?_⟩ (Or.inl hfree)
    · rw [hsecond.book, hsecond.cache, halone.book, halone.cache]
    · rw [hsecond.forwards, halone.forwards]
  · rw [hsecond.book, hsecond.cache, halone.book, halone.cache, hsecond.forwards, halone.forwards, or_iff_right hnot,
      eq_comm (a := [])]

theorem forwardsOf_eq_nil (ht : ¬ Breaking env.ledger.verifier h gs) : forwardsOf env c g h gs wrap = [] ↔
    ∀ a ∈ g.nodes, a = env.ledger.signer.address ∨
      ∃ m ∈ gs, m.address = a ∧ m.Verifies env.ledger.verifier h := by
  simp only [forwardsOf, List.map_eq_nil_iff, GossipNode.others, List.filter_eq_nil_iff, mem_enumerate,
    AList.mem_insert, (gossipersOf_spec env h ht).2.mem, decide_not, Bool.not_eq_true', decide_eq_false_iff_not,
    not_not, AList.notMem_empty, false_or]

end Two

/-! ### Vertices -/

theorem bind_ok {ε α β : Type} {x : Except ε α} {f : α → Except ε β} {b : β} (h : x >>= f = .ok b) :
    ∃ a, x = .ok a ∧ f a = .ok b := by
  cases x with
  | error e => cases h
  | ok a => exact ⟨a, rfl, h⟩

section Vertices

variable {env : Env} {b : Book} {v : Vertex} {probe : Hash → Probe} {faults : Faults} {p : ProtoVertex}
  {c : GossipMeets} {g : GossipNode}

theorem addLeaf_forged (b : Book) (probe : Hash → Probe) (faults : Faults) (hv : v.verify env.verifier = false) :
    ∃ e, b.addLeaf env v probe faults = (b, .error e) ∧ (.panicked ∈ e ↔ AddPanics env b v faults) := by
  have hguarded := addLeafGuard_returns b v
  unfold Book.addLeaf AddPanics
  cases hguard : b.addLeafGuard v with
  | error e =>
    rw [hguard] at hguarded
    exact ⟨e, rfl, by simpa using hguarded⟩
  | ok _ =>
    rw [← addLeafChecks_panics_iff]
    simp only [Book.addLeafMemorized, true_and]
    cases hchecks : b.addLeafChecks env (newMemory v).vrx faults with
    | error e => exact ⟨e, rfl, by rw [show b.addLeafChecks env v faults = .error e from hchecks]; simp⟩
    | ok _ =>
      have hverified : v.verify env.verifier = true := (addLeafChecks_ok hchecks).2
      rw [hv] at hverified
      cases hverified

theorem insertVertex_indexed {leaf : Vertex} {parents : List Vertex} {onSave : Err → Err} {rejected : Err}
    (h : (b.insertVertex leaf parents faults onSave rejected).2 = .ok ()) :
    (b.insertVertex leaf parents faults onSave rejected).1.trxsToVertxDB.lookup leaf.transaction.hash =
        some leaf.hash ∧
      (b.insertVertex leaf parents faults onSave rejected).1.dag.getVertex leaf.hash = some leaf ∧
      b.trxsToVertxDB.lookup leaf.transaction.hash = none := by
  obtain ⟨-, hfree, hindexed⟩ := insertVertex_done h
  exact ⟨hindexed, by rw [insertVertex_get, if_pos ⟨h, rfl⟩], hfree⟩

/-- RUN (parent loop): when it comes through, the index is as it was. -/
theorem checkParents_index {m : Memory} {b' : Book} {us : List Vertex} (hashes : List Hash) :
    ∀ {acc : List Vertex} {b : Book}, b.checkParents env m probe faults hashes acc = (b', .ok us) →
      b'.trxsToVertxDB = b.trxsToVertxDB := by
  induction hashes with
  | nil =>
    intro acc b h
    cases h
    rfl
  | cons hash rest ih =>
    intro acc b h
    rcases checkParents_cons env faults NoOrigin b m probe hash rest acc with
      ⟨b1, e, heq, -⟩ | ⟨b1, u, -, -, -, -, hindex, heq⟩
    · rw [heq] at h
      cases h
    · rw [heq] at h
      rw [ih h, hindex]

/-- SPEC (`AddLeaf`): an accepted vertex is in the graph and in the index, where its transaction was not. -/
theorem addLeaf_indexed (h : (b.addLeaf env v probe faults).2 = .ok ()) :
    (b.addLeaf env v probe faults).1.trxsToVertxDB.lookup v.transaction.hash = some v.hash ∧
      (b.addLeaf env v probe faults).1.dag.getVertex v.hash = some v ∧
      b.trxsToVertxDB.lookup v.transaction.hash = none := by
  unfold Book.addLeaf at h ⊢
  cases hguard : b.addLeafGuard v with
  | error e =>
    rw [hguard] at h
    cases h
  | ok _ =>
    simp only [hguard, Book.addLeafMemorized] at h ⊢
    cases hchecks : b.addLeafChecks env (newMemory v).vrx faults with
    | error e =>
      rw [hchecks] at h
      cases h
    | ok _ =>
      simp only [hchecks, Book.addLeafLocked] at h ⊢
      generalize hparents : b.checkParents env (newMemory v) probe faults (newMemory v).vrx.parentHashes [] = res at h ⊢
      obtain ⟨b1, e | us⟩ := res
      · cases h
      · obtain ⟨hnew, hget, hold⟩ := insertVertex_indexed h
        rw [checkParents_index _ hparents] at hold
        exact ⟨hnew, hget, hold⟩

theorem addLeaf_changes (h : (b.addLeaf env v probe faults).2 = .ok ()) :
    (b.addLeaf env v probe faults).1 ≠ b := by
  obtain ⟨hnew, -, hold⟩ := addLeaf_indexed h
  intro hsame
  rw [hsame, hold] at hnew
  cases hnew

theorem mapProtoVertex_hash (hp : mapProtoVertexToAccountantVertex p = .ok v) :
    Hash.ofSlice p.hash = .ok v.hash := by
  unfold mapProtoVertexToAccountantVertex at hp
  split at hp
  · cases hp
  · obtain ⟨trx, -, hp⟩ := bind_ok hp
    obtain ⟨hash, hhash, hp⟩ := bind_ok hp
    obtain ⟨left, -, hp⟩ := bind_ok hp
    obtain ⟨right, -, hp⟩ := bind_ok hp
    cases hp
    exact hhash

theorem processVrx_refuses {env : ServerEnv} (hp : mapProtoVertexToAccountantVertex p = .ok v)
    (hv : v.verify env.ledger.verifier = false) :
    ∃ e, Refuses (fun g => g.processVrx env c p) g e ∧
      (e = .wire .panicked ↔ AddPanics env.ledger g.book v c.ledger) := by
  obtain ⟨e, he, hpanics⟩ := addLeaf_forged g.book c.probe c.ledger hv
  cases htrx : p.transaction with
  | none =>
    rw [mapProtoVertexToAccountantVertex, htrx] at hp
    cases hp
  | some _ =>
    refine ⟨if .panicked ∈ e then .wire .panicked else .errFailedToProcessGossip, fun flash => ?_, ?_⟩
    · simp only [GossipNode.processVrx, htrx, hp, he]
    · rw [← hpanics]
      split <;> simp_all

theorem processVrx_accepts {env : ServerEnv} {b' : Book} (hp : mapProtoVertexToAccountantVertex p = .ok v)
    (hadd : g.book.addLeaf env.ledger v c.probe c.ledger = (b', .ok ())) :
    ∃ g', Accepts (fun g => g.processVrx env c p) g g' ∧ g'.book = b' ∧
      g'.cache = (removeAwaitedTransaction env.trxCodec c.cache g.cache v.transaction.hash
        v.transaction.receiverAddress).1 := by
  cases htrx : p.transaction with
  | none =>
    rw [mapProtoVertexToAccountantVertex, htrx] at hp
    cases hp
  | some _ =>
    let cache := (removeAwaitedTransaction env.trxCodec c.cache g.cache v.transaction.hash
      v.transaction.receiverAddress).1
    refine ⟨{ g with book := b', cache, tasks := g.tasks ++ [Service.forgetBoth v.transaction] },
      fun flash => ?_, rfl, rfl⟩
    simp only [GossipNode.processVrx, htrx, hp, hadd]
    rfl

end Vertices

/-! ### Transactions -/

section Transactions

variable {env : ServerEnv} {c : GossipMeets} {g : GossipNode} {p : ProtoTransaction} {trx : Transaction}

theorem protoTrxToTrx_hash (hp : protoTrxToTrx (some p) = .ok trx) : Hash.ofSlice p.hash = .ok trx.hash := by
  simp only [protoTrxToTrx] at hp
  split at hp
  · cases hp
  · obtain ⟨hash, hhash, hp⟩ := bind_ok hp
    obtain ⟨spice, -, hp⟩ := bind_ok hp
    cases hp
    exact hhash

theorem processTrx_refuses
    (hp : ∀ trx, protoTrxToTrx (some p) = .ok trx → trx.verifyIssuer env.ledger.verifier = false) :
    ∃ e, Refuses (fun g => g.processTrx env c p) g e ∧
      (e = .wire .panicked ↔ TrxBreaks (Transaction.checkIssuer env.ledger.verifier) (some p)) := by
  unfold TrxBreaks
  cases hconv : protoTrxToTrx (some p) with
  | ok trx =>
    have hv := hp trx hconv
    cases hcheck : trx.checkIssuer env.ledger.verifier with
    | accepted =>
      rw [Transaction.checkIssuer_eq_accepted_iff.mp hcheck] at hv
      cases hv
    | refused =>
      exact ⟨.errFailedToProcessGossip, fun flash => by simp only [GossipNode.processTrx, hconv, hcheck],
        by simp [hcheck]⟩
    | panicked =>
      exact ⟨.wire .panicked, fun flash => by simp only [GossipNode.processTrx, hconv, hcheck], by simp [hcheck]⟩
  | error e =>
    by_cases he : e = .panicked
    · subst he
      exact ⟨.wire .panicked, fun flash => by simp only [GossipNode.processTrx, hconv], by simp⟩
    · refine ⟨.errFailedToProcessGossip, fun flash => ?_, by simp [he]⟩
      cases e with
      | panicked => exact absurd rfl he
      | _ => simp only [GossipNode.processTrx, hconv]

theorem processTrx_accepts (hp : protoTrxToTrx (some p) = .ok trx) (hv : trx.verifyIssuer env.ledger.verifier = true) :
    Accepts (fun g => g.processTrx env c p) g
      { g with cache := (saveAwaitedTransaction env.trxCodec c.cache g.cache trx).1 } := by
  intro flash
  simp only [GossipNode.processTrx, hp, Transaction.checkIssuer_eq_accepted_iff.mpr hv]

theorem save_same_iff (codec : TrxCodec) (f : CacheFaults) (mem : BigCache) (trx : Transaction) :
    (saveAwaitedTransaction codec f mem trx).1 = mem ↔ ¬ Stores f mem trx.hash := by
  rcases saveAwaited_cases codec f mem trx with ⟨hstores, hthere⟩ | ⟨hnot, hsame, -⟩
  · refine ⟨fun h => ?_, fun h => absurd hstores h⟩
    rw [h, hstores.1] at hthere
    cases hthere
  · exact ⟨fun _ => hnot, fun _ => hsame⟩

end Transactions

/-! ### The law -/

/-- A message as it meets a node. -/
def GossipNode.answer (env : ServerEnv) (g : GossipNode) (m : GossipMeets × GossipMsg) : GossipNode × List Forward :=
  g.receive env m.1 m.2

theorem receive_vrx (env : ServerEnv) (c : GossipMeets) (g : GossipNode) (p : ProtoVertex) (gs : List ProtoGossiper) :
    g.receive env c (.vrx ⟨some p, gs⟩) = g.inProcess (GossipNode.handler env c p.hash gs
      (fun g => g.processVrx env c p) fun gs => .vrx ⟨some p, gs⟩) := rfl

theorem receive_trx (env : ServerEnv) (c : GossipMeets) (g : GossipNode) (p : ProtoTransaction)
    (gs : List ProtoGossiper) :
    g.receive env c (.trx ⟨some p, gs⟩) = g.inProcess (GossipNode.handler env c p.hash gs
      (fun g => g.processTrx env c p) fun gs => .trx ⟨some p, gs⟩) := rfl

/-- What a node has sent on after some messages. -/
def GossipNode.sent (env : ServerEnv) (g : GossipNode) (ms : List (GossipMeets × GossipMsg)) : List Forward :=
  (answers (GossipNode.answer env) g ms).flatten

/-- BUG with its CONDITION: the node is down or would not process the genuine message at all, or the forged
    one with the same hash neither ends the process nor marks the hash. Otherwise the genuine vertex is not in
    the ledger and nobody gets it; and the genuine transaction is neither kept nor sent, unless it could not
    be stored and everybody connected has signed it. -/
theorem forged_gossip_harmless_iff (env : ServerEnv) (c c' : GossipMeets) (g : GossipNode) :
    (∀ (p p' : ProtoVertex) (gs gs' : List ProtoGossiper) (v v' : Vertex), p.hash = p'.hash →
      mapProtoVertexToAccountantVertex p = .ok v → mapProtoVertexToAccountantVertex p' = .ok v' →
      v.verify env.ledger.verifier = false → (g.book.addLeaf env.ledger v' c'.probe c'.ledger).2 = .ok () →
      let forged := (c, GossipMsg.vrx ⟨some p, gs⟩)
      let genuine := (c', GossipMsg.vrx ⟨some p', gs'⟩)
      ((reach (GossipNode.answer env) g [forged, genuine]).book = (reach (GossipNode.answer env) g [genuine]).book ∧
        GossipNode.sent env g [forged, genuine] = GossipNode.sent env g [genuine] ↔
      Unhindered env c c' g p'.hash v'.hash gs gs' (AddPanics env.ledger g.book v c.ledger))) ∧
    (∀ (p p' : ProtoTransaction) (gs gs' : List ProtoGossiper) (trx' : Transaction), p.hash = p'.hash →
      (∀ trx, protoTrxToTrx (some p) = .ok trx → trx.verifyIssuer env.ledger.verifier = false) →
      protoTrxToTrx (some p') = .ok trx' → trx'.verifyIssuer env.ledger.verifier = true →
      let forged := (c, GossipMsg.trx ⟨some p, gs⟩)
      let genuine := (c', GossipMsg.trx ⟨some p', gs'⟩)
      ((reach (GossipNode.answer env) g [forged, genuine]).book = (reach (GossipNode.answer env) g [genuine]).book ∧
        (reach (GossipNode.answer env) g [forged, genuine]).cache =
          (reach (GossipNode.answer env) g [genuine]).cache ∧
        GossipNode.sent env g [forged, genuine] = GossipNode.sent env g [genuine] ↔
      Unhindered env c c' g p'.hash trx'.hash gs gs'
          (TrxBreaks (Transaction.checkIssuer env.ledger.verifier) (some p)) ∨
        ¬ Stores c'.cache g.cache trx'.hash ∧ ∀ a ∈ g.nodes, a = env.ledger.signer.address ∨
          ∃ m ∈ gs', m.address = a ∧ m.Verifies env.ledger.verifier trx'.hash)) := by
  refine ⟨fun p p' gs gs' v v' hhash hp hp' hv hadd => ?_, fun p p' gs gs' trx' hhash hp hp' hv => ?_⟩
  · obtain ⟨g', haccepts, hbook, -⟩ := processVrx_accepts (c := c') hp' (Prod.ext rfl hadd)
    obtain ⟨e, hrefuses, he⟩ := processVrx_refuses (c := c) (g := g) hp hv
    have hsame := same_iff (fun book _ => book) env c c' gs gs' (fun gs => .vrx ⟨some p, gs⟩)
      (fun gs => .vrx ⟨some p', gs⟩) (mapProtoVertex_hash hp') hrefuses he haccepts
    have hchanged : g.book ≠ g'.book := by
      rw [hbook]
      exact (addLeaf_changes hadd).symm
    simp only [hchanged, false_and, or_false] at hsame
    simp only [reach_cons, reach_nil, GossipNode.sent, answers, List.flatten_cons, List.flatten_nil, List.append_nil,
      GossipNode.answer, receive_vrx, hhash]
    exact hsame
  · obtain ⟨e, hrefuses, he⟩ := processTrx_refuses (c := c) (g := g) hp
    have hsame := same_iff (fun book cache => (book, cache)) env c c' gs gs' (fun gs => .trx ⟨some p, gs⟩)
      (fun gs => .trx ⟨some p', gs⟩) (protoTrxToTrx_hash hp') hrefuses he (processTrx_accepts (c := c') hp' hv)
    simp only [reach_cons, reach_nil, GossipNode.sent, answers, List.flatten_cons, List.flatten_nil, List.append_nil,
      GossipNode.answer, receive_trx, hhash]
    rw [← and_assoc, ← Prod.mk.injEq]
    refine hsame.trans ?_
    by_cases hfree : Unhindered env c c' g p'.hash trx'.hash gs gs'
        (TrxBreaks (Transaction.checkIssuer env.ledger.verifier) (some p))
    · exact iff_of_true (Or.inl hfree) (Or.inl hfree)
    · -- the genuine message is processed, so none of its gossipers panics
      have ht : ¬ Breaking env.ledger.verifier trx'.hash gs' := fun ht => hfree (Or.inr (Or.inl (Or.inr (Or.inl ht))))
      rw [or_iff_right hfree, or_iff_right hfree, forwardsOf_eq_nil ht, Prod.mk.injEq,
        ← save_same_iff env.trxCodec c'.cache g.cache trx', eq_comm (a := g.cache)]
      simp only [true_and]

namespace Transparent

/-- The sample node, connected to `peer` and to one more. -/
def connected : GossipNode := { service with nodes := [peer, wallet 4] }

/-- Nothing fails around a message. -/
def calmMeets : GossipMeets := ⟨false, false, .none, .none, fun _ => .calm [], [], []⟩

/-- A vertex that `peer` has sealed, as `peer` sends it. -/
def courier : Vertex := sealed (trx (wallet 7) (wallet 8) ⟨4, 0⟩ [] 3) (root 10) (root 10) 1 5

def courierProto : ProtoVertex := mapAccountantVertexToProtoVertex courier

def courierMsg : GossipMeets × GossipMsg :=
  (calmMeets, .vrx ⟨some courierProto, [(signer peer).gossiper courier.hash]⟩)

/-- The same vertex without its signature, from anybody. -/
def forgery : ProtoVertex := { courierProto with signature := [] }

def forgeryMsg : GossipMeets × GossipMsg := (calmMeets, .vrx ⟨some forgery, []⟩)

/-- The same forgery with an empty digest among its gossipers. -/
def shortMsg : GossipMeets × GossipMsg := (calmMeets, .vrx ⟨some forgery, [⟨peer, [], []⟩]⟩)

/-- A contract, and the same one with a signature that is not the issuer's. -/
def contractMsg : GossipMeets × GossipMsg := (calmMeets, .trx ⟨some (offer (wallet 8) 4).toProto, []⟩)

def forgedContract : ProtoTransaction := { (offer (wallet 8) 4).toProto with issuerSignature := [1] }

def forgedContractMsg : GossipMeets × GossipMsg := (calmMeets, .trx ⟨some forgedContract, []⟩)

/-- The flash memory does not take the hash. -/
def unnoted : GossipMeets := { calmMeets with flashSet := true }

end Transparent

open Transparent in
/-- BUG: after the forgery the genuine vertex is taken for a copy, so it is neither in the ledger nor sent on;
    with a short digest the forgery ends the process. The forged contract does the same to the genuine one. -/
theorem forgery_suppresses_genuine :
    (mapProtoVertexToAccountantVertex forgery = .ok { courier with signature := [] } ∧
      Vertex.verify verifier { courier with signature := [] } = false ∧
      (connected.book.addLeaf serverEnv.ledger courier calmMeets.probe calmMeets.ledger).2 = .ok ()) ∧
    ((reach (GossipNode.answer serverEnv) connected [courierMsg]).book.dag.getVertex courier.hash = some courier ∧
      (GossipNode.sent serverEnv connected [courierMsg]).map Prod.fst = [wallet 4]) ∧
    ((reach (GossipNode.answer serverEnv) connected [forgeryMsg, courierMsg]).book.dag.getVertex courier.hash = none ∧
      GossipNode.sent serverEnv connected [forgeryMsg, courierMsg] = []) ∧
    (reach (GossipNode.answer serverEnv) connected [shortMsg]).down = true ∧
    ((GossipNode.sent serverEnv connected [contractMsg]).map Prod.fst = [peer, wallet 4] ∧
      GossipNode.sent serverEnv connected [forgedContractMsg, contractMsg] = [] ∧
      (readTransactions plainCodec .none (reach (GossipNode.answer serverEnv) connected [contractMsg]).cache
        (wallet 8)).2 = .returned [offer (wallet 8) 4] none ∧
      (readTransactions plainCodec .none
        (reach (GossipNode.answer serverEnv) connected [forgedContractMsg, contractMsg]).cache (wallet 8)).2 =
          .returned [] (some .errTransactionNotFound)) := by
  decide +kernel

open Transparent in
/-- Where the flash memory refuses to note the forgery, the vertex arrives, and a contract that follows a
    forged one too. -/
theorem unnoted_forgery_harmless :
    ((reach (GossipNode.answer serverEnv) connected [(unnoted, forgeryMsg.2), courierMsg]).book =
        (reach (GossipNode.answer serverEnv) connected [courierMsg]).book ∧
      GossipNode.sent serverEnv connected [(unnoted, forgeryMsg.2), courierMsg] =
        GossipNode.sent serverEnv connected [courierMsg]) ∧
    ((reach (GossipNode.answer serverEnv) connected
        [(unnoted, forgedContractMsg.2), contractMsg]).cache =
        (reach (GossipNode.answer serverEnv) connected [contractMsg]).cache ∧
      GossipNode.sent serverEnv connected [(unnoted, forgedContractMsg.2), contractMsg] =
        GossipNode.sent serverEnv connected [contractMsg]) := by
  have hlaw := forged_gossip_harmless_iff serverEnv unnoted calmMeets connected
  have hmap : mapProtoVertexToAccountantVertex forgery = .ok { courier with signature := [] } ∧
      mapProtoVertexToAccountantVertex courierProto = .ok courier ∧
      Vertex.verify verifier { courier with signature := [] } = false ∧
      (connected.book.addLeaf serverEnv.ledger courier calmMeets.probe calmMeets.ledger).2 = .ok () := by
    decide +kernel
  have hunmarked : ∀ hash, ¬ Marks unnoted calmMeets hash := by
    rintro hash ⟨-, hset, -⟩
    cases hset
  have hforged : ∀ t, protoTrxToTrx (some forgedContract) = .ok t →
      t.verifyIssuer verifier = false := by
    have hconv : protoTrxToTrx (some forgedContract) =
        .ok { offer (wallet 8) 4 with issuerSignature := [1] } := by decide +kernel
    intro t ht
    rw [hconv] at ht
    cases ht
    decide +kernel
  have hgenuine : protoTrxToTrx (some (offer (wallet 8) 4).toProto) = .ok (offer (wallet 8) 4) ∧
      (offer (wallet 8) 4).verifyIssuer verifier = true := by decide +kernel
  have hempty : ∀ h, ¬ Breaking verifier h [] := by
    rintro h ⟨m, hm, -⟩
    cases hm
  have hvertex := hlaw.1 forgery courierProto [] [(signer peer).gossiper courier.hash] { courier with signature := [] }
    courier rfl hmap.1 hmap.2.1 hmap.2.2.1 hmap.2.2.2
  simp only [forgeryMsg, courierMsg, forgedContractMsg, contractMsg]
  refine ⟨hvertex.mpr ?_, ?_⟩
  · refine Or.inr (Or.inr ⟨?_, hunmarked _⟩)
    rintro ⟨-, ht | ⟨-, hpanics⟩⟩
    · exact hempty _ ht
    · have hcheck : Vertex.check verifier { courier with signature := [] } ≠ .panicked := by decide +kernel
      exact hcheck hpanics.2.2
  · have hcontract := hlaw.2 forgedContract (offer (wallet 8) 4).toProto [] [] (offer (wallet 8) 4) rfl hforged
      hgenuine.1 hgenuine.2
    refine (hcontract.mpr (Or.inl (Or.inr (Or.inr ⟨?_, hunmarked _⟩)))).2
    rintro ⟨-, ht | ⟨-, hpanic | ⟨t, -, hcheck⟩⟩⟩
    · exact hempty _ ht
    · revert hpanic
      decide +kernel
    · exact verifier_ne_panicked _ _ _ _ hcheck

end Computantis
