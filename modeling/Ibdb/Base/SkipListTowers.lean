import Ibdb.Base.SkipList
import Ibdb.Lib.Exec
import Ibdb.Lib.Linked

/-! The towers that a skip list links on each of its levels, and the search through them. -/
namespace Ibdb.Base
open Std

/-- What a node holds apart from its pointers, with the place of the node. -/
structure Tower (Key Value : Type) where
  ptr : ℕ
  height : ℕ
  key : Key
  value : Value

namespace SkipList
variable {Key Value : Type}

/-- The node `p` points to `q` on level `i`. -/
def Link (s : SkipList Key Value) (i p : ℕ) (q : NodePtr) : Prop :=
  ∃ node, s.nodes[p]? = some node ∧ node.next i = some q

/-- The node `p` has a pointer on level `i`. -/
def Reaches (s : SkipList Key Value) (i p : ℕ) : Prop :=
  ∃ node, s.nodes[p]? = some node ∧ i < node.height

def Stores (s : SkipList Key Value) (t : Tower Key Value) : Prop :=
  ∃ next, s.nodes[t.ptr]? = some ⟨t.height, t.key, t.value, next⟩

/-- The nodes of the towers that reach level `i`. -/
def level (i : ℕ) (ts : List (Tower Key Value)) : List ℕ :=
  (ts.filter (i < ·.height)).map (·.ptr)

@[simp] theorem level_append (i : ℕ) (ts us : List (Tower Key Value)) :
    level i (ts ++ us) = level i ts ++ level i us := by
  simp [level]

theorem level_cons_of_lt {i : ℕ} {t : Tower Key Value} (h : i < t.height)
    (ts : List (Tower Key Value)) : level i (t :: ts) = t.ptr :: level i ts := by
  simp [level, h]

theorem level_cons_of_le {i : ℕ} {t : Tower Key Value} (h : t.height ≤ i)
    (ts : List (Tower Key Value)) : level i (t :: ts) = level i ts := by
  simp [level, Nat.not_lt.mpr h]

theorem level_eq_nil {i : ℕ} {ts : List (Tower Key Value)} (h : ∀ t ∈ ts, t.height ≤ i) :
    level i ts = [] := by
  simp only [level, List.map_eq_nil_iff, List.filter_eq_nil_iff, decide_eq_true_eq, Nat.not_lt]
  exact h

theorem level_zero {ts : List (Tower Key Value)} (h : ∀ t ∈ ts, 0 < t.height) :
    level 0 ts = ts.map (·.ptr) := by
  unfold level
  rw [List.filter_eq_self.mpr fun t ht => decide_eq_true (h t ht)]

/-- The list is the towers in the order of their keys, linked on every level they reach. -/
structure Represents (cmp : Key → Key → Ordering) (s : SkipList Key Value)
    (ts : List (Tower Key Value)) : Prop where
  stores : ∀ t ∈ ts, s.Stores t
  head : ∀ i < kMaxHeight, s.Reaches i 0
  ne_head : ∀ t ∈ ts, t.ptr ≠ 0
  height_pos : ∀ t ∈ ts, 0 < t.height
  height_le : ∀ t ∈ ts, t.height ≤ s.maxHeight
  maxHeight_pos : 1 ≤ s.maxHeight
  maxHeight_le : s.maxHeight ≤ kMaxHeight
  length_lt : ts.length < s.nodes.length
  sorted : ts.Pairwise fun t u => cmp t.key u.key = .lt
  linked : ∀ i < kMaxHeight, Linked (s.Link i) 0 (level i ts)

theorem node_eq {s : SkipList Key Value} {p : ℕ} {x : Node Key Value}
    (h : s.nodes[p]? = some x) : s.node (some p) = .ok x := by
  simp [node, h]

theorem next_eq {s : SkipList Key Value} {i p : ℕ} {q : NodePtr} (h : s.Link i p q) :
    s.next (some p) i = .ok q := by
  obtain ⟨x, hx, hq⟩ := h
  rw [next, node_eq hx, Except.ok_bind, hq]
  rfl

section Search
variable {cmp : Key → Key → Ordering} {s : SkipList Key Value} {key : Key}
variable {ts pre post : List (Tower Key Value)}

/-- The last node of the towers is also the last of those that reach a level which it reaches. -/
theorem getLastD_level {i : ℕ} (h : ∀ t ∈ ts.getLast?, i < t.height) (p : ℕ) :
    (level i ts).getLastD p = (ts.map (·.ptr)).getLastD p := by
  rcases List.eq_nil_or_concat ts with rfl | ⟨us, t, rfl⟩
  · rfl
  · rw [List.concat_eq_append] at h ⊢
    have ht : i < t.height := h t (by simp)
    have hlevel : level i (us ++ [t]) = level i us ++ [t.ptr] := by
      rw [level_append, level_cons_of_lt ht]
      rfl
    rw [hlevel, List.map_append, List.map_singleton, List.getLastD_concat, List.getLastD_concat]

theorem keyIsAfterNode_head (hstores : ∀ t ∈ ts, s.Stores t)
    (h : ∀ t ∈ ts, cmp t.key key ≠ .lt) :
    s.keyIsAfterNode cmp key (ts.map (·.ptr)).head? = .ok false := by
  cases ts with
  | nil => rfl
  | cons t ts =>
    obtain ⟨next, hnext⟩ := hstores t List.mem_cons_self
    have hlt := h t List.mem_cons_self
    simp [keyIsAfterNode, node_eq hnext, hlt]

theorem keyIsAfterNode_of_lt {t : Tower Key Value} (hstores : s.Stores t)
    (h : cmp t.key key = .lt) : s.keyIsAfterNode cmp key (some t.ptr) = .ok true := by
  obtain ⟨next, hnext⟩ := hstores
  simp [keyIsAfterNode, node_eq hnext, h]

/-- From a node before the sought place, `done` being the towers up to it and `left` those between
it and the place, the search comes to the place and notes the last node before it on each level. -/
theorem search_eq (h : s.Represents cmp (pre ++ post)) (hpre : ∀ t ∈ pre, cmp t.key key = .lt)
    (hpost : ∀ t ∈ post, cmp t.key key ≠ .lt) (fuel : ℕ) {done left : List (Tower Key Value)}
    (hsplit : pre = done ++ left) {n : ℕ} (hn : n < s.maxHeight)
    (hdone : ∀ t ∈ done.getLast?, n < t.height) (hfuel : left.length + n < fuel)
    (prev : ℕ → NodePtr) :
    ∃ prev', s.search cmp key fuel (some ((done.map (·.ptr)).getLastD 0)) n prev =
        .ok ((post.map (·.ptr)).head?, prev') ∧
      (∀ i ≤ n, prev' i = some ((level i pre).getLastD 0)) ∧ ∀ i, n < i → prev' i = prev i := by
  induction fuel generalizing done left n prev with
  | zero => omega
  | succ fuel ih =>
    have hlink : Linked (s.Link n) ((done.map (·.ptr)).getLastD 0) (level n left ++ level n post) := by
      have hall := h.linked n (hn.trans_le h.maxHeight_le)
      rw [hsplit, List.append_assoc, level_append, level_append] at hall
      rw [← getLastD_level hdone]
      exact hall.drop
    have hstores : ∀ t ∈ pre ++ post, s.Stores t := h.stores
    rw [search, next_eq hlink.head, Except.ok_bind]
    cases hleft : left.filter (n < ·.height) with
    | nil =>
      -- nothing before the place reaches this level: note the node and go down
      have hlevel : level n left = [] := by rw [level, hleft, List.map_nil]
      have hpost' : ∀ t ∈ post.filter (n < ·.height), cmp t.key key ≠ .lt := fun t ht =>
        hpost t (List.mem_of_mem_filter ht)
      rw [hlevel, List.nil_append, level, keyIsAfterNode_head (fun t ht =>
        hstores t (List.mem_append_right pre (List.mem_of_mem_filter ht))) hpost', Except.ok_bind]
      have hnoted : (level n pre).getLastD 0 = (done.map (·.ptr)).getLastD 0 := by
        rw [hsplit, level_append, hlevel, List.append_nil, getLastD_level hdone]
      simp only [Bool.false_eq_true, if_false]
      by_cases hzero : n = 0
      · subst hzero
        refine ⟨Function.update prev 0 (some ((done.map (·.ptr)).getLastD 0)), ?_, ?_, ?_⟩
        · rw [if_pos rfl,
            ← level_zero fun t ht => h.height_pos t (List.mem_append_right pre ht)]
          rfl
        · intro i hi
          rw [Nat.le_zero.mp hi, Function.update_self, hnoted]
        · intro i hi
          rw [Function.update_of_ne hi.ne']
      · have hbelow : ∀ t ∈ done.getLast?, n - 1 < t.height := fun t ht =>
          (Nat.sub_le n 1).trans_lt (hdone t ht)
        obtain ⟨prev', hsearch, hnodes, hrest⟩ := ih hsplit (n := n - 1) (by omega) hbelow (by omega)
          (Function.update prev n (some ((done.map (·.ptr)).getLastD 0)))
        refine ⟨prev', by rw [if_neg hzero, hsearch], ?_, ?_⟩
        · intro i hi
          rcases Nat.lt_or_ge i n with hlt | hge
          · exact hnodes i (by omega)
          · obtain rfl : i = n := by omega
            rw [hrest i (by omega), Function.update_self, hnoted]
        · intro i hi
          rw [hrest i (by omega), Function.update_of_ne (by omega)]
    | cons q rest =>
      obtain ⟨skipped, left', hleft', hskipped, hq, hrest⟩ := List.filter_eq_cons_iff.mp hleft
      have hqpre : q ∈ pre := by simp [hsplit, hleft']
      have hlevel : (level n left ++ level n post).head? = some q.ptr := by
        rw [level, hleft]
        rfl
      rw [hlevel, keyIsAfterNode_of_lt (hstores q (List.mem_append_left post hqpre))
        (hpre q hqpre), Except.ok_bind]
      have hsplit' : pre = (done ++ skipped ++ [q]) ++ left' := by
        rw [hsplit, hleft']
        simp
      have hlast : some q.ptr = some (((done ++ skipped ++ [q]).map (·.ptr)).getLastD 0) := by
        rw [List.map_append, List.map_singleton, List.getLastD_concat]
      have hlen : left'.length < left.length := by
        rw [hleft', List.length_append, List.length_cons]
        omega
      rw [if_pos rfl, hlast]
      refine ih hsplit' hn ?_ (by omega) prev
      intro t ht
      obtain rfl : q = t := by simpa using ht
      exact of_decide_eq_true hq

end Search
end SkipList
end Ibdb.Base
