import Mathlib.Data.Set.Finite.Basic
import Mathlib.Logic.Relation
import Mathlib.Order.WellFoundedSet

/-!
# Ownership graphs

The vertices own one another along the edges.  A graph without cycles keeps no
part of itself alive: if only finitely many vertices are owned, every owned
vertex is reached from one that has an owner outside of the graph.
-/

namespace OwnershipGraphs

open Relation

variable {Vertex : Type*} {edge edge' : Vertex → Vertex → Prop} {source : Vertex}

/-- No vertex owns itself, not even through others. -/
def Acyclic (edge : Vertex → Vertex → Prop) : Prop :=
  ∀ vertex, ¬ TransGen edge vertex vertex

theorem Acyclic.mono (acyclic : Acyclic edge) (fewer : ∀ v w, edge' v w → edge v w) :
    Acyclic edge' :=
  fun vertex cycle => acyclic vertex (TransGen.mono fewer _ _ cycle)

/-- A path ends where some edge enters. -/
theorem entered_of_path {v w : Vertex} (path : TransGen edge v w) : ∃ u, edge u w := by
  cases path with
  | single last | tail _ last => exact ⟨_, last⟩

/-- A path that starts elsewhere has no edge out of a vertex that no edge enters. -/
theorem path_elsewhere (added : ∀ v w, edge' v w → v = source ∨ edge v w)
    (unentered : ∀ v, ¬ edge' v source) {v w : Vertex} (path : TransGen edge' v w)
    (elsewhere : v ≠ source) : TransGen edge v w := by
  induction path with
  | single last =>
      rcases added _ _ last with same | old
      · exact absurd same elsewhere
      · exact .single old
  | tail before last ih =>
      rcases added _ _ last with same | old
      · obtain ⟨u, enters⟩ := entered_of_path before
        exact absurd (same ▸ enters) (unentered u)
      · exact ih.tail old

/-- Edges that leave a vertex which no edge enters close no cycle. -/
theorem Acyclic.extend (acyclic : Acyclic edge)
    (added : ∀ v w, edge' v w → v = source ∨ edge v w)
    (unentered : ∀ v, ¬ edge' v source) : Acyclic edge' := by
  intro vertex cycle
  by_cases same : vertex = source
  · obtain ⟨u, enters⟩ := entered_of_path cycle
    exact unentered u (same ▸ enters)
  · exact acyclic vertex (path_elsewhere added unentered cycle same)

theorem Acyclic.isStrictOrder (acyclic : Acyclic edge) :
    IsStrictOrder Vertex (TransGen edge) where
  irrefl := acyclic
  trans _ _ _ := TransGen.trans

/-- Going back from owner to owner ends at a root. -/
theorem Acyclic.reached (acyclic : Acyclic edge) {owned root : Vertex → Prop}
    (finite : {vertex | owned vertex}.Finite)
    (owner : ∀ v, owned v → root v ∨ ∃ u, owned u ∧ edge u v) {vertex : Vertex}
    (here : owned vertex) : ∃ start, root start ∧ ReflTransGen edge start vertex := by
  have order := acyclic.isStrictOrder
  have founded : {vertex | owned vertex}.WellFoundedOn (TransGen edge) := finite.wellFoundedOn
  apply founded.induction here
  intro v held ih
  rcases owner v held with last | ⟨u, before, enters⟩
  · exact ⟨v, last, .refl⟩
  · obtain ⟨start, first, path⟩ := ih u before (.single enters)
    exact ⟨start, first, path.tail enters⟩

end OwnershipGraphs
