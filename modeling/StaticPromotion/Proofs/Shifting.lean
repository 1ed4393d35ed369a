import StaticPromotion.Proofs.Reindexing
import StaticPromotion.Proofs.Splicing

/-!
# Where a text goes when a word is put in

A word is put at some cuts of a text. What stands between two cuts moves as a whole, by the words in front of it, and no line is
broken by a word without a line break. So the texts and the lines of nodes stay the same, if the nodes move along.

* `Splice.Weaves.split`   the text up to an offset goes to the front, and what follows goes on as before up to the next cut;
* `Splice.Weaves.count`   a byte that the word does not have occurs as often as before;
* `Edit.shifting cuts`    how far starts and ends of nodes move. A node that starts at a cut stands behind the word, and one
                          that ends there in front of it;
* `Edit.text_shifting`, `Edit.line_shifting`   so a node that no cut divides has its text, and every node its line.
-/

namespace StaticPromotion

namespace Splice

variable {start c x : Nat} {parts : List (List UInt8)} {word bytes out : List UInt8} {cuts : List Nat}

/-! ## the text up to an offset -/

theorem le_of_mem_ends (h : c ∈ ends start parts) : start ≤ c := by
  induction parts generalizing start with
  | nil => cases h
  | cons part rest ih =>
    rcases List.mem_cons.mp h with rfl | hrest
    · exact Nat.le_add_right _ _
    · exact Nat.le_trans (Nat.le_add_right _ _) (ih hrest)

theorem le_of_mem_ends_of_flatten (h : c ∈ ends start parts) : c ≤ start + parts.flatten.length := by
  induction parts generalizing start with
  | nil => cases h
  | cons part rest ih =>
    rw [List.flatten_cons, List.length_append]
    rcases List.mem_cons.mp h with rfl | hrest
    · omega
    · have hle := ih hrest
      omega

theorem Weaves.le_length (h : Weaves word cuts bytes out) (hc : c ∈ cuts) : c ≤ bytes.length := by
  obtain ⟨parts, rfl, hends, _⟩ := h
  have hmem : c ∈ ends 0 parts := by
    rw [hends]
    exact List.mem_append_left _ hc
  have hle := le_of_mem_ends_of_flatten hmem
  omega

/-- `after` goes on like `bytes` until the next of the cuts behind `x` -/
def GoesOn (cuts : List Nat) (x : Nat) (bytes after : List UInt8) : Prop :=
  ∀ i, (∀ c ∈ cuts, c ≤ x ∨ x + i ≤ c) → after.take i = bytes.take i

/-- the outcome of dividing pieces that begin at `start` -/
def Splits (word : List UInt8) (parts : List (List UInt8)) (cuts : List Nat) (start x : Nat) : Prop :=
  ∃ front after, front ≠ [] ∧ front.flatten = parts.flatten.take (x - start) ∧
    ends start front = cuts.filter (· ≤ x) ++ [x] ∧
    word.intercalate parts = word.intercalate front ++ after ∧
    GoesOn cuts x (parts.flatten.drop (x - start)) after

theorem splits_first {part tail : List UInt8} {rest : List (List UInt8)}
    (hstart : start ≤ x) (hx : x ≤ start + part.length)
    (hcuts : ∀ c ∈ cuts, x < c) (htail : word.intercalate (part :: rest) = part ++ tail)
    (hgoes : GoesOn cuts x ((part :: rest).flatten.drop (x - start)) (part.drop (x - start) ++ tail)) :
    Splits word (part :: rest) cuts start x := by
  have hle : x - start ≤ part.length := by omega
  have hnone : cuts.filter (· ≤ x) = [] :=
    List.filter_eq_nil_iff.mpr fun c hc => by simpa using hcuts c hc
  refine ⟨[part.take (x - start)], part.drop (x - start) ++ tail, List.cons_ne_nil _ _, ?_, ?_, ?_,
    hgoes⟩
  · rw [List.flatten_singleton, List.flatten_cons, List.take_append_of_le_length hle]
  · rw [ends, ends, List.length_take_of_le hle, Nat.add_sub_cancel' hstart, hnone]
    rfl
  · rw [List.intercalate_singleton, ← List.append_assoc, List.take_append_drop, htail]

theorem Splits.cons {part : List UInt8} {rest : List (List UInt8)}
    (hrest : rest ≠ []) (hx : start + part.length ≤ x) (h : Splits word rest cuts (start + part.length) x) :
    Splits word (part :: rest) ((start + part.length) :: cuts) start x := by
  obtain ⟨front, after, hfront, hflat, hends, hwoven, hgoes⟩ := h
  have hsub : x - start = part.length + (x - (start + part.length)) := by omega
  have hcons : ∀ parts : List (List UInt8), parts ≠ [] →
      word.intercalate (part :: parts) = part ++ word ++ word.intercalate parts := by
    intro parts hparts
    obtain ⟨next, others, rfl⟩ := List.exists_cons_of_ne_nil hparts
    rw [List.intercalate_cons_cons]
  refine ⟨part :: front, after, List.cons_ne_nil _ _, ?_, ?_, ?_, ?_⟩
  · rw [List.flatten_cons, List.flatten_cons, hflat, hsub, List.take_length_add_append]
  · rw [ends, hends, List.filter_cons, if_pos (decide_eq_true hx)]
    rfl
  · rw [hcons rest hrest, hcons front hfront, hwoven, List.append_assoc _ _ after]
  · intro i hi
    rw [List.flatten_cons, hsub, List.drop_length_add_append]
    exact hgoes i fun c hc => hi c (List.mem_cons_of_mem _ hc)

theorem splits_pieces (word : List UInt8) {last : Nat} (hends : ends start parts = cuts ++ [last])
    (hstart : start ≤ x) (hlast : x ≤ last) : Splits word parts cuts start x := by
  induction parts generalizing cuts start with
  | nil => cases cuts <;> cases hends
  | cons part rest ih =>
    cases cuts with
    | nil =>
      -- no cut, so there is one piece
      obtain ⟨rfl, hnil⟩ := List.cons.inj hends
      obtain rfl : rest = [] := by
        cases rest with
        | nil => rfl
        | cons => cases hnil
      refine splits_first hstart hlast (fun c hc => absurd hc List.not_mem_nil)
        (List.intercalate_singleton.trans (List.append_nil part).symm) fun i _ => ?_
      rw [List.flatten_singleton, List.append_nil]
    | cons c cuts =>
      obtain ⟨rfl, htail⟩ := List.cons.inj hends
      have hrest : rest ≠ [] := by
        rintro rfl
        cases cuts <;> cases htail
      by_cases hx : x < start + part.length
      · obtain ⟨next, others, rfl⟩ := List.exists_cons_of_ne_nil hrest
        have hcuts : ∀ c ∈ (start + part.length) :: cuts, x < c := by
          intro c hc
          rcases List.mem_cons.mp hc with rfl | hc
          · exact hx
          · have hmem : c ∈ ends (start + part.length) (next :: others) := by
              rw [htail]
              exact List.mem_append_left _ hc
            exact Nat.lt_of_lt_of_le hx (le_of_mem_ends hmem)
        have hcons : word.intercalate (part :: next :: others) =
            part ++ (word ++ word.intercalate (next :: others)) := by
          rw [List.intercalate_cons_cons, List.append_assoc]
        refine splits_first hstart (Nat.le_of_lt hx) hcuts hcons fun i hi => ?_
        have hle : x - start ≤ part.length := by omega
        have hi : i ≤ (part.drop (x - start)).length := by
          rw [List.length_drop]
          rcases hi _ List.mem_cons_self with hc | hc <;> omega
        rw [List.flatten_cons, List.drop_append_of_le_length hle, List.take_append_of_le_length hi,
          List.take_append_of_le_length hi]
      · exact (ih htail (by omega)).cons hrest (by omega)

theorem Weaves.split (h : Weaves word cuts bytes out) (hx : x ≤ bytes.length) :
    ∃ before after, Weaves word (cuts.filter (· ≤ x)) (bytes.take x) before ∧
      out = before ++ after ∧ GoesOn cuts x (bytes.drop x) after := by
  obtain ⟨parts, rfl, hends, rfl⟩ := h
  obtain ⟨front, after, _, hflat, hfront, hwoven, hgoes⟩ :=
    splits_pieces word hends (Nat.zero_le x) hx
  rw [Nat.sub_zero] at hflat hgoes
  refine ⟨word.intercalate front, after, ⟨front, hflat, ?_, rfl⟩, hwoven, hgoes⟩
  rw [hfront, List.length_take_of_le hx]

theorem count_intercalate {b : UInt8} (hb : b ∉ word)
    (parts : List (List UInt8)) : (word.intercalate parts).count b = parts.flatten.count b := by
  induction parts with
  | nil => rfl
  | cons part rest ih =>
    cases rest with
    | nil => rw [List.intercalate_singleton, List.flatten_singleton]
    | cons next rest =>
      rw [List.intercalate_cons_cons, List.count_append, List.count_append, ih,
        List.count_eq_zero_of_not_mem hb, Nat.add_zero, ← List.count_append, ← List.flatten_cons]

theorem Weaves.count (h : Weaves word cuts bytes out)
    {b : UInt8} (hb : b ∉ word) : out.count b = bytes.count b := by
  obtain ⟨parts, rfl, _, rfl⟩ := h
  exact count_intercalate hb parts

end Splice

/-! ## nodes that move along -/

namespace Edit

/-- the word with the blank in front of it -/
def width : Nat := 7

theorem length_behind : (Utf8.encode " static").length = width := by
  decide +kernel

theorem injective_shift (p : Nat → Nat → Bool) (cuts : List Nat)
    (hp : ∀ x y c, x ≤ y → p x c = true → p y c = true) :
    Function.Injective fun x => x + width * cuts.countP (p x) := by
  have hlt : ∀ x y, x < y → x + width * cuts.countP (p x) < y + width * cuts.countP (p y) := by
    intro x y hxy
    have hcount : cuts.countP (p x) ≤ cuts.countP (p y) :=
      List.countP_mono_left fun c _ => hp x y c (Nat.le_of_lt hxy)
    have hwords := Nat.mul_le_mul_left width hcount
    omega
  intro x y hxy
  rcases Nat.lt_trichotomy x y with h | h | h
  · exact absurd hxy (Nat.ne_of_lt (hlt x y h))
  · exact h
  · exact absurd hxy.symm (Nat.ne_of_lt (hlt y x h))

def shifting (cuts : List Nat) (lists : List Node) : Edit where
  start x := x + width * cuts.countP fun c => decide (c ≤ x)
  stop x := x + width * cuts.countP fun c => decide (c < x)
  lists := lists
  start_injective := injective_shift _ cuts fun _ _ _ hxy h =>
    decide_eq_true (Nat.le_trans (of_decide_eq_true h) hxy)
  stop_injective := injective_shift _ cuts fun _ _ _ hxy h =>
    decide_eq_true (Nat.lt_of_lt_of_le (of_decide_eq_true h) hxy)

/-- the order of the cuts does not matter -/
theorem shifting_perm {cuts cuts' : List Nat} (h : cuts.Perm cuts') (lists : List Node) :
    shifting cuts lists = shifting cuts' lists := by
  simp only [shifting, h.countP_eq]

section
variable {cuts : List Nat} {lists : List Node} {u u' : SourceUnit}
  (h : Splice.Weaves (Utf8.encode " static") cuts u.bytes.toList u'.bytes.toList)

theorem slice_eq (u : SourceUnit) (start stop : Nat) :
    u.slice start stop = (u.bytes.toList.drop start).take (stop - start) := by
  rw [SourceUnit.slice, Array.toList_extract, List.extract_eq_take_drop]

include h

/-- the text up to an offset goes to where a node that starts there starts now -/
theorem split_shifting (lists : List Node) (x : Nat) :
    Splice.Weaves (Utf8.encode " static") (cuts.filter (· ≤ x)) (u.bytes.toList.take x)
        (u'.bytes.toList.take ((shifting cuts lists).start x)) ∧
      Splice.GoesOn cuts x (u.bytes.toList.drop x)
        (u'.bytes.toList.drop ((shifting cuts lists).start x)) := by
  have hwords : cuts.countP (fun c => decide (c ≤ x)) = (cuts.filter (· ≤ x)).length :=
    List.countP_eq_length_filter
  rcases Nat.le_total x u.bytes.toList.length with hx | hx
  · obtain ⟨before, after, hbefore, hout, hgoes⟩ := h.split hx
    have hlength : (shifting cuts lists).start x = before.length := by
      rw [hbefore.length, List.length_take_of_le hx, length_behind, ← hwords, Nat.mul_comm]
      rfl
    rw [hout, hlength, List.take_left, List.drop_left]
    exact ⟨hbefore, hgoes⟩
  · have hall : cuts.filter (· ≤ x) = cuts :=
      List.filter_eq_self.mpr fun c hc => decide_eq_true (Nat.le_trans (h.le_length hc) hx)
    have hlength : u'.bytes.toList.length ≤ (shifting cuts lists).start x := by
      rw [h.length, length_behind, Nat.mul_comm]
      show _ ≤ x + width * cuts.countP _
      rw [hwords, hall]
      omega
    rw [hall, List.take_of_length_le hx, List.take_of_length_le hlength, List.drop_eq_nil_of_le hx,
      List.drop_eq_nil_of_le hlength]
    exact ⟨h, fun _ _ => rfl⟩

theorem slice_shifting {start stop : Nat} (hcuts : ∀ c ∈ cuts, c ≤ start ∨ stop ≤ c) :
    u'.slice ((shifting cuts lists).start start) ((shifting cuts lists).stop stop) =
      u.slice start stop := by
  rw [slice_eq, slice_eq]
  by_cases hle : stop ≤ start
  · have hcount : cuts.countP (fun c => decide (c < stop)) ≤
        cuts.countP fun c => decide (c ≤ start) := by
      refine List.countP_mono_left fun c _ hc => decide_eq_true ?_
      have hlt := of_decide_eq_true hc
      omega
    have hempty : (shifting cuts lists).stop stop - (shifting cuts lists).start start = 0 := by
      have hwords := Nat.mul_le_mul_left width hcount
      simp only [shifting]
      omega
    rw [hempty, Nat.sub_eq_zero_of_le hle, List.take_zero, List.take_zero]
  · have hcount : cuts.countP (fun c => decide (c < stop)) =
        cuts.countP fun c => decide (c ≤ start) := by
      refine List.countP_congr fun c hc => ?_
      rw [decide_eq_true_eq, decide_eq_true_eq]
      rcases hcuts c hc with hbefore | hbehind <;> omega
    have hwidth : (shifting cuts lists).stop stop - (shifting cuts lists).start start =
        stop - start := by
      simp only [shifting, hcount]
      omega
    rw [hwidth]
    exact (split_shifting h lists start).2 (stop - start) fun c hc =>
      (hcuts c hc).imp_right fun hbehind => by omega

theorem line_shifting (n : Node) : u'.line (n.edit (shifting cuts lists)) = u.line n := by
  have hbreak : SourceUnit.lineBreak ∉ Utf8.encode " static" := by decide +kernel
  rw [SourceUnit.line, SourceUnit.line, slice_eq, slice_eq, Node.start_edit, Nat.sub_zero,
    Nat.sub_zero, List.drop_zero, List.drop_zero, (split_shifting h lists n.start).1.count hbreak]

theorem text_shifting {n : Node} (hkind : n.kind ≠ "modifiers")
    (hcuts : ∀ c ∈ cuts, c ≤ n.start ∨ n.stop ≤ c) : u'.text (n.edit (shifting cuts lists)) = u.text n := by
  have hstop : (shifting cuts lists).stopOf n.kind n.stop = (shifting cuts lists).stop n.stop :=
    if_neg fun hlist => hkind (eq_of_beq hlist)
  rw [SourceUnit.text, Node.start_edit, Node.stop_edit, hstop, slice_shifting h hcuts,
    SourceUnit.text]

end

end Edit

end StaticPromotion
