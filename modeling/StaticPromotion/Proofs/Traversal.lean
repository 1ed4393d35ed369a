import StaticPromotion.Proofs.Positions

/-!
# The walk over a tree, and the part that a refusal names

A walk keeps a stack in place of recursion, with the children of a node put on it in reverse. Whatever is on the stack, the
nodes still to come are the trees on it from the top down, so that the walk meets the nodes in the order of recursion.

* `Node.walkFrom_eq`              that invariant, and from it `Node.walk_eq_preorder`;
* `Node.ways`                     the ways to all nodes; they increase in the order of words, and the walk follows them;
* `SourceUnit.check_names_first`  so the part that a refusal names is the first broken one in document order.
-/

namespace StaticPromotion

namespace Node

/-! ## the walk -/

/-- what a walk still meets are the trees on its stack, from the top down -/
theorem walkFrom_eq (stack : Array Node) : walkFrom stack = stack.toList.reverse.flatMap preorder := by
  fun_induction walkFrom stack with
  | case1 stack hempty =>
    rw [Array.back?_eq_none_iff.mp hempty]
    rfl
  | case2 stack top htop ih =>
    rw [ih, toList_of_back? htop, Array.toList_appendList, List.reverse_append, List.reverse_reverse,
      List.flatMap_append, List.reverse_append, List.reverse_singleton, List.singleton_append,
      List.flatMap_cons, preorder_eq top, List.cons_append]

theorem walk_eq_preorder (n : Node) : n.walk = n.preorder := by
  rw [walk, walkFrom_eq]
  exact List.append_nil _

/-! ## document order -/

mutual

/-- the ways to the nodes of a tree: to a node before those below it, and to its children from left to right -/
def ways : Node → List Way
  | ⟨_, _, _, _, _, _, children⟩ => [] :: waysFrom 0 children

def waysFrom (i : Nat) : List Node → List Way
  | [] => []
  | c :: rest => c.ways.map (i :: ·) ++ waysFrom (i + 1) rest

end

theorem waysFrom_eq (i : Nat) (cs : List Node) :
    waysFrom i cs = (cs.zipIdx i).flatMap fun p => p.1.ways.map (p.2 :: ·) := by
  induction cs generalizing i with
  | nil => rfl
  | cons c rest ih => rw [waysFrom, ih, List.zipIdx_cons, List.flatMap_cons]

theorem ways_eq (n : Node) : n.ways = [] :: n.children.zipIdx.flatMap fun p => p.1.ways.map (p.2 :: ·) := by
  rw [← waysFrom_eq]
  cases n
  rw [ways]

variable {n : Node}

theorem mem_children_of_mem_zipIdx {p : Node × Nat} (h : p ∈ n.children.zipIdx) : p.1 ∈ n.children :=
  List.mem_of_getElem? (List.mem_zipIdx_iff_getElem?.mp h)

theorem at?_cons_of_mem {p : Node × Nat} (h : p ∈ n.children.zipIdx) (way : Way) :
    n.at? (p.2 :: way) = p.1.at? way := by
  rw [at?, List.mem_zipIdx_iff_getElem?.mp h]
  rfl

theorem mem_ways_iff (n : Node) (way : Way) : way ∈ n.ways ↔ (n.at? way).isSome = true := by
  induction way generalizing n with
  | nil =>
    rw [ways_eq]
    exact iff_of_true List.mem_cons_self rfl
  | cons i way ih =>
    have hway : i :: way ∈ n.ways ↔ ∃ c, n.children[i]? = some c ∧ way ∈ c.ways := by
      rw [ways_eq]
      simp [List.mem_zipIdx_iff_getElem?]
    rw [hway, at?]
    cases n.children[i]? <;> simp [ih]

theorem ways_increase (n : Node) : n.ways.Pairwise (List.Lex (· < ·)) := by
  induction n using Node.induction with
  | node n ih =>
    have hincreasing : (n.children.zipIdx.map Prod.snd).Pairwise (· < ·) := by
      rw [List.zipIdx_map_snd]
      exact List.pairwise_lt_range' 1
    rw [ways_eq]
    refine .cons (fun way hway => ?_) (List.pairwise_flatMap.mpr ⟨fun p hp => ?_, ?_⟩)
    · obtain ⟨p, _, hway⟩ := List.mem_flatMap.mp hway
      obtain ⟨rest, _, rfl⟩ := List.mem_map.mp hway
      exact .nil
    · exact List.pairwise_map.mpr ((ih p.1 (mem_children_of_mem_zipIdx hp)).imp .cons)
    · refine (List.pairwise_map.mp hincreasing).imp fun hlt way hway way' hway' => ?_
      obtain ⟨_, _, rfl⟩ := List.mem_map.mp hway
      obtain ⟨_, _, rfl⟩ := List.mem_map.mp hway'
      exact .rel hlt

theorem map_at?_ways (n : Node) : n.ways.map n.at? = n.preorder.map some := by
  induction n using Node.induction with
  | node n ih =>
    have hnodes : n.children.flatMap preorder = n.children.zipIdx.flatMap fun p => p.1.preorder := by
      rw [← List.flatMap_map Prod.fst, List.zipIdx_map_fst]
    rw [ways_eq, preorder_eq, List.map_cons, List.map_cons, hnodes, List.map_flatMap, List.map_flatMap]
    refine congrArg (_ :: ·) (List.flatMap_congr fun p hp => ?_)
    rw [List.map_map, ← ih p.1 (mem_children_of_mem_zipIdx hp)]
    exact List.map_congr_left fun way _ => at?_cons_of_mem hp way

end Node

namespace SourceUnit

open Node

variable {u : SourceUnit} {n : Node}

/-! ## the part that is reported -/

theorem firstBroken?_eq_some_iff : u.firstBroken? = some n ↔
    ∃ before after, u.root.preorder = before ++ n :: after ∧ n.isBroken = true ∧
      ∀ m ∈ before, m.isBroken = false := by
  rw [firstBroken?, walk_eq_preorder, List.find?_eq_some_iff_append]
  simp only [Bool.not_eq_true']
  constructor
  · rintro ⟨hn, before, after, h⟩
    exact ⟨before, after, h.1, hn, h.2⟩
  · rintro ⟨before, after, h, hn, hbefore⟩
    exact ⟨hn, before, after, h, hbefore⟩

theorem firstBroken?_eq_none_iff : u.firstBroken? = none ↔ ∀ m ∈ u.root.preorder, m.isBroken = false := by
  rw [firstBroken?, walk_eq_preorder, List.find?_eq_none]
  simp only [Bool.not_eq_true]

theorem check_of_sound (h : u.hasErrors = false) : u.check = .ok u := by
  unfold check
  rw [h]
  rfl

/-- a defective tree is refused, by its first broken part if it has one, whose text the message quotes -/
theorem check_of_hasErrors (h : u.hasErrors = true) :
    (u.firstBroken? = none ∧ u.check = .error (.syntaxError .unlocated)) ∨
      ∃ n, u.firstBroken? = some n ∧
        ((∃ text, u.text n = .ok text ∧ ∃ snippet,
            u.check = .error (.syntaxError (.near snippet (u.line n) (u.column n)))) ∨
          ∃ f, u.text n = .error (.undecodable f) ∧ u.check = .error (.undecodable f)) := by
  unfold check
  rw [h]
  cases hbroken : u.firstBroken? with
  | none => exact .inl ⟨rfl, rfl⟩
  | some n =>
    refine .inr ⟨n, rfl, ?_⟩
    dsimp only
    cases hdecoded : Utf8.decode (u.slice n.start n.stop) with
    | ok text =>
      have htext : u.text n = .ok text := by rw [SourceUnit.text, hdecoded]; rfl
      rw [htext]
      exact .inl ⟨text, rfl, _, rfl⟩
    | error f =>
      have htext : u.text n = .error (.undecodable f) := by rw [SourceUnit.text, hdecoded]; rfl
      rw [htext]
      exact .inr ⟨f, rfl, rfl⟩

theorem check_ok {u' : SourceUnit} (h : u.check = .ok u') : u' = u ∧ u.hasErrors = false := by
  cases herrors : u.hasErrors with
  | false =>
    rw [check_of_sound herrors] at h
    cases h
    exact ⟨rfl, rfl⟩
  | true =>
    rcases check_of_hasErrors herrors with ⟨_, hcheck⟩ | ⟨_, _, ⟨_, _, _, hcheck⟩ | ⟨_, _, hcheck⟩⟩ <;>
      rw [hcheck] at h <;> cases h

/-- A walk meets the nodes of a tree in document order, each once: the order of the ways that lead to them. So the part that a
refusal names is the first broken one in that order. A tree is refused just if it counts as defective, with the place of
that part, or without a place if no part is broken. -/
theorem check_names_first (code : String) (tree : ParseTree) :
    let u := SourceUnit.ofText code tree
    (u.root.walk = u.root.preorder ∧ u.root.walk.map some = u.root.ways.map u.root.at? ∧
        u.root.ways.Pairwise (List.Lex (· < ·)) ∧
        ∀ way, way ∈ u.root.ways ↔ (u.root.at? way).isSome = true) ∧
      (∀ n, u.firstBroken? = some n ↔ ∃ before after, u.root.preorder = before ++ n :: after ∧
        n.isBroken = true ∧ ∀ m ∈ before, m.isBroken = false) ∧
      (u.firstBroken? = none ↔ ∀ m ∈ u.root.preorder, m.isBroken = false) ∧
      ((∀ n, u.firstBroken? = some n → ∃ text, u.text n = .ok text) →
        ((∃ e, u.check = .error (.syntaxError e)) ↔ tree.hasErrors = true) ∧
        (tree.hasErrors = true →
          (∀ n, u.firstBroken? = some n → ∃ snippet,
            u.check = .error (.syntaxError (.near snippet (u.line n) (u.column n)))) ∧
          (u.firstBroken? = none → u.check = .error (.syntaxError .unlocated)))) := by
  intro u
  have hwalk := u.root.walk_eq_preorder
  refine ⟨⟨hwalk, ?_, u.root.ways_increase, u.root.mem_ways_iff⟩, fun n => firstBroken?_eq_some_iff,
    firstBroken?_eq_none_iff, fun hreadable => ?_⟩
  · rw [hwalk, map_at?_ways]
  · have hrefused : tree.hasErrors = true → (u.firstBroken? = none ∧ u.check = .error (.syntaxError .unlocated)) ∨
        ∃ n, u.firstBroken? = some n ∧ ∃ snippet,
          u.check = .error (.syntaxError (.near snippet (u.line n) (u.column n))) := by
      intro herrors
      rcases check_of_hasErrors (u := u) herrors with hnone | ⟨n, hn, ⟨_, _, hcheck⟩ | ⟨f, htext, _⟩⟩
      · exact .inl hnone
      · exact .inr ⟨n, hn, hcheck⟩
      · obtain ⟨text, htext'⟩ := hreadable n hn
        rw [htext] at htext'
        cases htext'
    refine ⟨⟨?_, fun herrors => ?_⟩, fun herrors => ?_⟩
    · rintro ⟨e, he⟩
      cases hsound : tree.hasErrors with
      | true => rfl
      | false =>
        rw [check_of_sound (u := u) hsound] at he
        cases he
    · rcases hrefused herrors with ⟨_, hcheck⟩ | ⟨_, _, _, hcheck⟩
      · exact ⟨_, hcheck⟩
      · exact ⟨_, hcheck⟩
    · rcases hrefused herrors with ⟨hnone, hcheck⟩ | ⟨n, hn, hcheck⟩
      · exact ⟨fun n hn => absurd (hnone.symm.trans hn) (by simp), fun _ => hcheck⟩
      · refine ⟨fun n' hn' => ?_, fun hnone => absurd (hnone.symm.trans hn) (by simp)⟩
        cases hn.symm.trans hn'
        exact hcheck

/-- two broken parts, the first in document order one level further down -/
def brokenTwice : ParseTree where
  root := ⟨"program", true, false, 0, 9, none, [
    ⟨"identifier", true, false, 0, 1, none, []⟩,
    ⟨"arguments", true, false, 2, 7, none, [⟨"ERROR", true, false, 4, 5, none, []⟩]⟩,
    ⟨"ERROR", true, false, 8, 9, none, []⟩]⟩

theorem brokenTwice_named_first : ∃ n snippet,
    let u := SourceUnit.ofText "a\n( ? ) ?" brokenTwice
    u.firstBroken? = some n ∧ u.text n = .ok "?" ∧ u.line n = 2 ∧ u.column n = 3 ∧
      u.check = .error (.syntaxError (.near snippet (u.line n) (u.column n))) := by
  let u := SourceUnit.ofText "a\n( ? ) ?" brokenTwice
  let n : Node := ⟨"ERROR", true, false, 4, 5, none, []⟩
  have hn : u.firstBroken? = some n := by
    rw [firstBroken?, walk_eq_preorder]
    rfl
  have htext : u.text n = .ok "?" := by rfl
  have hplace : u.line n = 2 ∧ u.column n = 3 := by decide +kernel
  have hspec := (check_names_first "a\n( ? ) ?" brokenTwice).2.2.2 fun n' hn' => by
    cases hn.symm.trans hn'
    exact ⟨_, htext⟩
  obtain ⟨snippet, hcheck⟩ := (hspec.2 rfl).1 n hn
  exact ⟨n, snippet, hn, htext, hplace.1, hplace.2, hcheck⟩

end SourceUnit

end StaticPromotion
