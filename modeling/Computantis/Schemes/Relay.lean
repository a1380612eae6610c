import Mathlib.Data.Finset.Card
import Mathlib.Data.Finset.Insert
import Mathlib.Data.List.Nodup

/-! @scheme relay | name:Relays that mark what they pass on | family:measure

    An item goes from relay to relay. Each one looks at the marks on it, does not touch it if its own is
    there, and otherwise adds its own and passes it on. So the marks grow along every chain, nobody comes
    up twice, and a chain is no longer than there are relays. -/

namespace Schemes

variable {α : Type} [DecidableEq α]

/-- One relay of a chain, and the marks that it found. -/
structure Hop (α : Type) where
  node : α
  seen : Finset α

/-- A chain that starts with some marks and ends with others. -/
inductive Relay : Finset α → List (Hop α) → Finset α → Prop
  | start (marks : Finset α) : Relay marks [] marks
  | pass {first marks : Finset α} {hops : List (Hop α)} {a : α} (h : Relay first hops marks) (ha : a ∉ marks) :
      Relay first (hops ++ [⟨a, marks⟩]) (insert a marks)

namespace Relay

variable {first marks : Finset α} {hops : List (Hop α)}

theorem marked (h : Relay first hops marks) : ∀ hop ∈ hops, hop.node ∈ marks ∧ hop.seen ⊂ marks := by
  induction h with
  | start => exact fun hop hmem => (List.not_mem_nil hmem).elim
  | @pass marks hops a h ha ih =>
    have hgrows : marks ⊂ insert a marks := Finset.ssubset_insert ha
    intro hop hmem
    rcases List.mem_append.mp hmem with hmem | hlast
    · obtain ⟨hnode, hseen⟩ := ih hop hmem
      exact ⟨Finset.mem_insert_of_mem hnode, hseen.trans hgrows⟩
    · rw [List.mem_singleton.mp hlast]
      exact ⟨Finset.mem_insert_self a marks, hgrows⟩

theorem nodup (h : Relay first hops marks) : (hops.map Hop.node).Nodup := by
  induction h with
  | start => exact List.nodup_nil
  | @pass marks hops a h ha ih =>
    rw [List.map_append, List.map_singleton]
    refine List.nodup_append.mpr ⟨ih, List.nodup_singleton a, ?_⟩
    intro b hb c hc hbc
    obtain ⟨hop, hhop, rfl⟩ := List.mem_map.mp hb
    have hnode : hop.node = a := hbc.trans (List.mem_singleton.mp hc)
    exact ha (hnode ▸ (h.marked hop hhop).1)

theorem grows (h : Relay first hops marks) : hops.Pairwise fun hop next => hop.seen ⊂ next.seen := by
  induction h with
  | start => exact List.Pairwise.nil
  | @pass marks hops a h ha ih =>
    refine List.pairwise_append.mpr ⟨ih, List.pairwise_singleton .., ?_⟩
    intro hop hhop next hnext
    rw [List.mem_singleton.mp hnext]
    exact (h.marked hop hhop).2

theorem length_le (h : Relay first hops marks) {relays : Finset α} (hall : ∀ hop ∈ hops, hop.node ∈ relays) :
    hops.length ≤ relays.card := by
  have hsub : (hops.map Hop.node).toFinset ⊆ relays := by
    intro a ha
    obtain ⟨hop, hhop, rfl⟩ := List.mem_map.mp (List.mem_toFinset.mp ha)
    exact hall hop hhop
  calc hops.length = (hops.map Hop.node).length := (List.length_map ..).symm
    _ = (hops.map Hop.node).toFinset.card := (List.toFinset_card_of_nodup h.nodup).symm
    _ ≤ relays.card := Finset.card_le_card hsub

end Relay

end Schemes
