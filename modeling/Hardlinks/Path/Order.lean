-- SUMMARY: The order of paths by components, and maps kept in it.
import Hardlinks.Path.Basic

/-!
# The order of paths

Paths are ordered by their components: the root first, then `.`, then `..`, then names by their
bytes; of two lists of components, one that continues the other comes after it. The order does not
see how a path is spelled, so a map kept in it has one pair per place, not per spelling.
-/

namespace Hardlinks

/-- The place of a component in the order, as a list of numbers compared from the left. -/
def Component.rank : Component → List UInt8
  | .root => [0]
  | .here => [1]
  | .up => [2]
  | .name n => 3 :: n

theorem Component.rank_inj {c d : Component} (h : c.rank = d.rank) : c = d := by
  cases c <;> cases d <;> simp_all [rank]

namespace Path

def rank (p : Path) : List (List UInt8) :=
  p.components.map Component.rank

theorem rank_eq_iff {p q : Path} : p.rank = q.rank ↔ p.components = q.components :=
  List.map_inj_right fun _ _ => Component.rank_inj

end Path

/-! ## Maps -/

/-- Pairs in the strict order of their first paths. -/
structure PathMap (α : Type) where
  pairs : List (Path × α)
  sorted : pairs.Pairwise fun a b => a.1.rank < b.1.rank

namespace PathMap

variable {α : Type}

def empty : PathMap α :=
  ⟨[], .nil⟩

/-- Sets the value at `p` among pairs in order. A place that is already there keeps its spelling. -/
def insertPair (p : Path) (value : α) : List (Path × α) → List (Path × α)
  | [] => [(p, value)]
  | (q, old) :: rest =>
    if p.rank < q.rank then (p, value) :: (q, old) :: rest
    else if q.rank < p.rank then (q, old) :: insertPair p value rest
    else (q, value) :: rest

theorem rank_mem_insertPair {p : Path} {value : α} {pairs : List (Path × α)} {pair : Path × α}
    (h : pair ∈ insertPair p value pairs) :
    pair.1 = p ∨ ∃ old ∈ pairs, pair.1 = old.1 := by
  fun_induction insertPair p value pairs with
  | case1 => simp_all
  | case2 q old rest _ =>
      rcases List.mem_cons.1 h with rfl | h
      · exact .inl rfl
      · exact .inr ⟨pair, h, rfl⟩
  | case3 q old rest _ _ ih =>
      rcases List.mem_cons.1 h with rfl | h
      · exact .inr ⟨_, List.mem_cons_self, rfl⟩
      · rcases ih h with h | ⟨o, ho, h⟩
        · exact .inl h
        · exact .inr ⟨o, List.mem_cons_of_mem _ ho, h⟩
  | case4 q old rest _ _ =>
      rcases List.mem_cons.1 h with rfl | h
      · exact .inr ⟨_, List.mem_cons_self, rfl⟩
      · exact .inr ⟨pair, List.mem_cons_of_mem _ h, rfl⟩

theorem sorted_insertPair {p : Path} {value : α} {pairs : List (Path × α)}
    (h : pairs.Pairwise fun a b => a.1.rank < b.1.rank) :
    (insertPair p value pairs).Pairwise fun a b => a.1.rank < b.1.rank := by
  fun_induction insertPair p value pairs with
  | case1 => simp
  | case2 q old rest hlt =>
      refine List.pairwise_cons.2 ⟨fun pair hpair => ?_, h⟩
      rcases List.mem_cons.1 hpair with rfl | hpair
      · exact hlt
      · exact List.lt_trans hlt ((List.pairwise_cons.1 h).1 pair hpair)
  | case3 q old rest _ hlt ih =>
      refine List.pairwise_cons.2 ⟨fun pair hpair => ?_, ih (List.pairwise_cons.1 h).2⟩
      rcases rank_mem_insertPair hpair with hp | ⟨o, ho, hp⟩
      · simpa only [hp] using hlt
      · simpa only [hp] using (List.pairwise_cons.1 h).1 o ho
  | case4 q old rest _ _ =>
      exact List.pairwise_cons.2 (List.pairwise_cons.1 h)

def insert (m : PathMap α) (p : Path) (value : α) : PathMap α :=
  ⟨insertPair p value m.pairs, sorted_insertPair m.sorted⟩

/-- The map that results from setting the pairs one after the other. -/
def ofList (pairs : List (Path × α)) : PathMap α :=
  pairs.foldl (fun m pair => m.insert pair.1 pair.2) empty

end PathMap

end Hardlinks
