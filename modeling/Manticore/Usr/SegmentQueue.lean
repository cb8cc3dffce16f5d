import Manticore.Base.DoublyLinked
import Manticore.Base.Run
import Manticore.Usr.MallocHeap

/-!
# The queue of segments

`malloc_segment_queue_enqueue` and `malloc_segment_queue_remove` of `malloc.c` on a queue of any
length.  `remove` clears the link to the predecessor before it copies it to the successor, so a
segment with neighbours on both sides takes the way back to the first part of the queue with it.  The
heap only ever removes the head, and for that the queue is a list: `pop` and `enqueue` in any order
keep it well formed.

A queue is read through its cells: the two words of the structure, and two links in each segment.
Cells do not overlap, so a store to one of them is seen by that one only.
-/

namespace Manticore

/-- A word of the queue: its head or tail, or a link of a segment. -/
inductive QueueCell where
  | head
  | tail
  | prev (segment : ℕ)
  | next (segment : ℕ)
deriving DecidableEq

namespace QueueCell

def addr (heap : ℕ) : QueueCell → ℕ
  | head => heapQueueHead heap
  | tail => heapQueueTail heap
  | prev segment => segment
  | next segment => segment + 8

/-- The structure that the cell is in: the queue, or a segment. -/
def owner : QueueCell → Option ℕ
  | head => none
  | tail => none
  | prev segment => some segment
  | next segment => some segment

def off : QueueCell → ℕ
  | head => 0
  | tail => 8
  | prev _ => 0
  | next _ => 8

/-- The cell is one of a queue with the segments `l`. -/
def Of (l : List ℕ) (c : QueueCell) : Prop := ∀ segment, c.owner = some segment → segment ∈ l

def get (m : Mem) (heap : ℕ) (c : QueueCell) : ℕ := load m (c.addr heap) 8

def set (m : Mem) (heap : ℕ) (c : QueueCell) (v : ℕ) : Mem := store m (c.addr heap) 8 v

theorem get_lt (m : Mem) (heap : ℕ) (c : QueueCell) : c.get m heap < 2 ^ 64 := load_lt m _ 8

theorem get_head (m : Mem) (heap : ℕ) : head.get m heap = load m (heapQueueHead heap) 8 := rfl

theorem get_tail (m : Mem) (heap : ℕ) : tail.get m heap = load m (heapQueueTail heap) 8 := rfl

theorem get_prev (m : Mem) (heap x : ℕ) : (prev x).get m heap = segmentPrev m x := rfl

theorem get_next (m : Mem) (heap x : ℕ) : (next x).get m heap = segmentNext m x := rfl

theorem of_segment {l : List ℕ} {x : ℕ} (hx : x ∈ l) : (prev x).Of l ∧ (next x).Of l :=
  ⟨fun _ h => Option.some.inj h ▸ hx, fun _ h => Option.some.inj h ▸ hx⟩

theorem of_queue {l : List ℕ} : head.Of l ∧ tail.Of l :=
  ⟨(fun _ h => nomatch h), fun _ h => nomatch h⟩

theorem addr_eq (heap : ℕ) (c : QueueCell) :
    c.addr heap = c.owner.getD (heapQueueHead heap) + c.off := by
  cases c <;> rfl

theorem off_cases (c : QueueCell) : c.off = 0 ∨ c.off = 8 := by
  cases c
  case head => exact .inl rfl
  case tail => exact .inr rfl
  case prev => exact .inl rfl
  case next => exact .inr rfl

theorem eq_of_owner_off {c d : QueueCell} (howner : c.owner = d.owner) (hoff : c.off = d.off) :
    c = d := by
  cases c <;> cases d <;> simp_all [owner, off]

end QueueCell

/-- The links of the segments and the queue structure do not overlap. -/
structure Placed (heap : ℕ) (l : List ℕ) : Prop where
  apart : l.Pairwise fun x y => Span.Apart ⟨x, 16⟩ ⟨y, 16⟩
  queue : ∀ x ∈ l, Span.Apart ⟨x, 16⟩ (queueSpan heap)

/-- **A well-formed queue**: it is linked from the head by `next` and from the tail by `prev`. -/
structure SegmentQueue (m : Mem) (heap : ℕ) (l : List ℕ) : Prop where
  links : DLinked (segmentNext m) (segmentPrev m) (load m (heapQueueHead heap) 8)
    (load m (heapQueueTail heap) 8) l
  placed : Placed heap l

/-- The segment has left the queue, and the others are there in their order. -/
structure Removes (m : Mem) (heap segment : ℕ) (others : List ℕ) : Prop where
  queue : SegmentQueue m heap others
  unlinked : segmentPrev m segment = 0 ∧ segmentNext m segment = 0

section Cells

variable {m : Mem} {heap v : ℕ} {l : List ℕ} {c d : QueueCell}

theorem Placed.nodup (h : Placed heap l) : l.Nodup :=
  h.apart.imp fun hapart heq => by
    simp only [Span.Apart, heq] at hapart
    omega

theorem Placed.apart_of_ne (h : Placed heap l) {x y : ℕ} (hx : x ∈ l) (hy : y ∈ l) (hne : x ≠ y) :
    x + 16 ≤ y ∨ y + 16 ≤ x := by
  have hsymm : Std.Symm fun x y : ℕ => Span.Apart ⟨x, 16⟩ ⟨y, 16⟩ := ⟨fun _ _ hor => Or.symm hor⟩
  exact h.apart.forall hx hy hne

theorem Placed.tail {x : ℕ} (h : Placed heap (x :: l)) : Placed heap l :=
  ⟨h.apart.of_cons, fun y hy => h.queue y (List.mem_cons_of_mem _ hy)⟩

theorem Placed.sublist {l' : List ℕ} (h : Placed heap l) (hsub : l'.Sublist l) : Placed heap l' :=
  ⟨h.apart.sublist hsub, fun x hx => h.queue x (hsub.subset hx)⟩

theorem Placed.perm {l' : List ℕ} (h : Placed heap l) (hperm : l.Perm l') : Placed heap l' := by
  refine ⟨h.apart.perm hperm fun hor => Or.symm hor, fun x hx => ?_⟩
  exact h.queue x (hperm.mem_iff.mpr hx)

theorem Placed.owners_apart (h : Placed heap l) (hc : c.Of l) (hd : d.Of l)
    (hne : c.owner ≠ d.owner) :
    c.owner.getD (heapQueueHead heap) + 16 ≤ d.owner.getD (heapQueueHead heap) ∨
      d.owner.getD (heapQueueHead heap) + 16 ≤ c.owner.getD (heapQueueHead heap) := by
  cases howner : c.owner with
  | none =>
      cases howner' : d.owner with
      | none => exact absurd (howner.trans howner'.symm) hne
      | some y => exact Or.symm (h.queue y (hd y howner'))
  | some x =>
      cases howner' : d.owner with
      | none => exact h.queue x (hc x howner)
      | some y =>
          refine h.apart_of_ne (hc x howner) (hd y howner') fun hxy => hne ?_
          rw [howner, howner']
          exact congrArg some hxy

theorem get_set (h : Placed heap l) (hc : c.Of l) (hd : d.Of l) (hv : v < 2 ^ 64) :
    d.get (c.set m heap v) heap = if d = c then v else d.get m heap := by
  by_cases heq : d = c
  · rw [if_pos heq, heq]
    exact load_store_same hv
  · rw [if_neg heq]
    apply load_store_of_disjoint
    rw [c.addr_eq, d.addr_eq]
    have hoff := c.off_cases
    have hoff' := d.off_cases
    by_cases howner : c.owner = d.owner
    · -- two words of one structure
      have hne : c.off ≠ d.off := fun hoff => heq (QueueCell.eq_of_owner_off howner hoff).symm
      rw [howner]
      omega
    · have hapart := h.owners_apart hc hd howner
      omega

theorem get_ite_set (h : Placed heap l) (hc : c.Of l) (hd : d.Of l) (hv : v < 2 ^ 64)
    (p : Prop) [Decidable p] :
    d.get (if p then c.set m heap v else m) heap = if p ∧ d = c then v else d.get m heap := by
  by_cases hp : p
  · rw [if_pos hp, get_set h hc hd hv]
    exact if_congr (and_iff_right hp).symm rfl rfl
  · rw [if_neg hp, if_neg fun hand => hp hand.1]

theorem get_relink {e : QueueCell} (h : Placed heap l) (p : Prop) [Decidable p]
    (hc : p → c.Of l) (he : e.Of l) (hd : d.Of l) (hv : v < 2 ^ 64)
    (hclear : ¬ p → e.get m heap = 0) :
    d.get (if p then e.set (c.set m heap v) heap 0 else m) heap =
      if d = e then 0 else if p ∧ d = c then v else d.get m heap := by
  by_cases hp : p
  · rw [if_pos hp, get_set h he hd (by decide), get_set h (hc hp) hd hv]
    simp only [hp, true_and]
  · rw [if_neg hp]
    by_cases heq : d = e
    · rw [if_pos heq, heq]
      exact hclear hp
    · rw [if_neg heq, if_neg fun hand => hp hand.1]

end Cells

section Remove

variable {m : Mem} {heap s : ℕ} {l : List ℕ} {d : QueueCell}

open QueueCell

/-- The first part of `remove`: the two words of the queue. -/
def removeEnds (m : Mem) (heap s : ℕ) : Mem :=
  let m := if s = head.get m heap then head.set m heap ((next s).get m heap) else m
  if s = tail.get m heap then tail.set m heap ((prev s).get m heap) else m

theorem remove_eq_cells (m : Mem) (heap s : ℕ) : mallocSegmentQueueRemove m heap s =
    let m := removeEnds m heap s
    let m := if (prev s).get m heap ≠ 0 then
      (prev s).set ((next ((prev s).get m heap)).set m heap ((next s).get m heap)) heap 0 else m
    if (next s).get m heap ≠ 0 then
      (next s).set ((prev ((next s).get m heap)).set m heap ((prev s).get m heap)) heap 0 else m :=
  rfl

theorem get_removeEnds (h : Placed heap l) (hs : s ∈ l) (hd : d.Of l) :
    d.get (removeEnds m heap s) heap =
      if s = tail.get m heap ∧ d = tail then (prev s).get m heap
      else if s = head.get m heap ∧ d = head then (next s).get m heap else d.get m heap := by
  obtain ⟨hsp, -⟩ := of_segment hs
  obtain ⟨hhead, htail⟩ := @of_queue l
  rw [removeEnds]
  have h₁ {c : QueueCell} (hc : c.Of l) := get_ite_set (m := m) h hhead hc
    (get_lt m heap (next s)) (s = head.get m heap)
  generalize (if s = head.get m heap then head.set m heap ((next s).get m heap) else m) = m₁ at h₁ ⊢
  have htail₁ : tail.get m₁ heap = tail.get m heap := (h₁ htail).trans (if_neg (by simp))
  have hprev₁ : (prev s).get m₁ heap = (prev s).get m heap := (h₁ hsp).trans (if_neg (by simp))
  rw [htail₁, hprev₁, get_ite_set h htail hd (get_lt m heap _), h₁ hd]

/-- What `remove` leaves in a cell. Whatever stood before the segment, its successor gets no
predecessor. -/
def removedCell (cell : QueueCell → ℕ) (s : ℕ) : QueueCell → ℕ
  | head => if s = cell head then cell (next s) else cell head
  | tail => if s = cell tail then cell (prev s) else cell tail
  | prev x => if x = s ∨ x = cell (next s) then 0 else cell (prev x)
  | next x => if x = s then 0 else if x = cell (prev s) then cell (next s) else cell (next x)

theorem get_remove (h : Placed heap l) (hs : s ∈ l) (hzero : 0 ∉ l)
    (hprev : segmentPrev m s ≠ 0 → segmentPrev m s ∈ l)
    (hnext : segmentNext m s ≠ 0 → segmentNext m s ∈ l) (hd : d.Of l) :
    d.get (mallocSegmentQueueRemove m heap s) heap = removedCell (fun c => c.get m heap) s d := by
  obtain ⟨hsp, hsn⟩ := of_segment hs
  have hends {c : QueueCell} (hc : c.Of l) := get_removeEnds (m := m) h hs hc
  rw [remove_eq_cells]
  dsimp only
  generalize removeEnds m heap s = m₁ at hends ⊢
  obtain ⟨px, hpx⟩ : ∃ px, (prev s).get m heap = px := ⟨_, rfl⟩
  obtain ⟨nx, hnx⟩ : ∃ nx, (next s).get m heap = nx := ⟨_, rfl⟩
  replace hprev : px ≠ 0 → px ∈ l := hpx ▸ hprev
  replace hnext : nx ≠ 0 → nx ∈ l := hnx ▸ hnext
  have hprev₁ : (prev s).get m₁ heap = px := by rw [hends hsp, if_neg (by simp), if_neg (by simp), hpx]
  have hnext₁ : (next s).get m₁ heap = nx := by rw [hends hsn, if_neg (by simp), if_neg (by simp), hnx]
  -- the predecessor and the link to it
  rw [hprev₁, hnext₁]
  have h₂ {c : QueueCell} (hc : c.Of l) := get_relink (m := m₁) (c := next px) (e := prev s) h (px ≠ 0)
    (fun hp => (of_segment (hprev hp)).2) hsp hc (hnx ▸ get_lt m heap _)
    fun hp => hprev₁.trans (not_not.mp hp)
  generalize (if px ≠ 0 then (prev s).set ((next px).set m₁ heap nx) heap 0 else m₁) = m₂ at h₂ ⊢
  have hprev₂ : (prev s).get m₂ heap = 0 := (h₂ hsp).trans (if_pos rfl)
  have hnext₂ : (next s).get m₂ heap = nx := by
    rw [h₂ hsn, if_neg (by simp)]
    exact ite_eq_left_iff.mpr fun _ => hnext₁
  -- the successor, whose new predecessor is the cleared link
  rw [hprev₂, hnext₂, get_relink (c := prev nx) (e := next s) h (nx ≠ 0)
    (fun hn => (of_segment (hnext hn)).1) hsn hd (by decide)
    fun hn => hnext₂.trans (not_not.mp hn), h₂ hd, hends hd]
  cases d with
  | head =>
      simp only [reduceCtorEq, and_false, if_false, and_true]
      simp only [removedCell]
  | tail =>
      simp only [reduceCtorEq, and_false, if_false, and_true]
      simp only [removedCell]
  | prev x =>
      have hx : x ≠ 0 := fun hx => hzero (hx ▸ hd x rfl)
      have hiff : (nx ≠ 0 ∧ x = nx) ↔ x = nx := and_iff_right_of_imp fun heq => heq ▸ hx
      simp only [reduceCtorEq, and_false, if_false, prev.injEq, hiff]
      simp only [removedCell, hnx]
      rw [← ite_or]
      exact if_congr or_comm rfl rfl
  | next x =>
      have hx : x ≠ 0 := fun hx => hzero (hx ▸ hd x rfl)
      have hiff : (px ≠ 0 ∧ x = px) ↔ x = px := and_iff_right_of_imp fun heq => heq ▸ hx
      simp only [reduceCtorEq, and_false, if_false, next.injEq, hiff]
      simp only [removedCell, hpx, hnx]

end Remove

section Enqueue

variable {m : Mem} {heap t : ℕ} {l : List ℕ} {d : QueueCell}

open QueueCell

theorem enqueue_eq_cells (m : Mem) (heap t : ℕ) : mallocSegmentQueueEnqueue m heap t =
    let m := (prev t).set m heap (tail.get m heap)
    let m := (next t).set m heap 0
    if tail.get m heap ≠ 0 then tail.set ((next (tail.get m heap)).set m heap t) heap t
    else head.set (tail.set m heap t) heap t :=
  rfl

/-- What `enqueue` leaves in a cell. -/
def enqueuedCell (cell : QueueCell → ℕ) (t : ℕ) : QueueCell → ℕ
  | head => if cell tail = 0 then t else cell head
  | tail => t
  | prev x => if x = t then cell tail else cell (prev x)
  | next x => if x = t then 0 else if x = cell tail then t else cell (next x)

theorem get_enqueue (h : Placed heap (t :: l)) (hzero : 0 ∉ t :: l) (ht : t < 2 ^ 64)
    (htl : tail.get m heap ≠ 0 → tail.get m heap ∈ l) (hd : d.Of (t :: l)) :
    d.get (mallocSegmentQueueEnqueue m heap t) heap = enqueuedCell (fun c => c.get m heap) t d := by
  obtain ⟨htp, htn⟩ := of_segment (List.mem_cons_self (a := t) (l := l))
  obtain ⟨hhead, htail⟩ := @of_queue (t :: l)
  rw [enqueue_eq_cells]
  obtain ⟨tl, htl'⟩ : ∃ tl, tail.get m heap = tl := ⟨_, rfl⟩
  have htl64 : tl < 2 ^ 64 := htl' ▸ get_lt m heap _
  rw [htl'] at htl ⊢
  dsimp only
  have h₁ {c : QueueCell} (hc : c.Of (t :: l)) := get_set (m := m) h htp hc htl64
  generalize (prev t).set m heap tl = m₁ at h₁ ⊢
  have h₂ {c : QueueCell} (hc : c.Of (t :: l)) := get_set (m := m₁) (v := 0) h htn hc (by decide)
  generalize (next t).set m₁ heap 0 = m₂ at h₂ ⊢
  have htail₂ : tail.get m₂ heap = tl := by
    rw [h₂ htail, if_neg (by simp), h₁ htail, if_neg (by simp), htl']
  simp only [htail₂]
  by_cases hz : tl = 0
  · rw [if_neg (not_not.mpr hz), get_set h hhead hd ht, get_set h htail hd ht, h₂ hd, h₁ hd]
    cases d with
    | head => simp [enqueuedCell, htl', hz]
    | tail => simp [enqueuedCell]
    | prev x => simp [enqueuedCell, htl']
    | next x =>
        have hx : x ≠ 0 := fun hx => hzero (hx ▸ hd x rfl)
        simp [enqueuedCell, htl', hz, hx]
  · have hmem : tl ∈ t :: l := List.mem_cons_of_mem _ (htl hz)
    rw [if_pos hz, get_set h htail hd ht, get_set h (of_segment hmem).2 hd ht, h₂ hd, h₁ hd]
    cases d with
    | head => simp [enqueuedCell, htl', hz]
    | tail => simp [enqueuedCell]
    | prev x => simp [enqueuedCell, htl']
    | next x =>
        -- the new segment is not the one that was last
        have hne : x = tl → x ≠ t := by
          rintro rfl rfl
          exact (List.nodup_cons.mp h.nodup).1 (htl hz)
        simp only [reduceCtorEq, if_false, next.injEq, enqueuedCell, htl']
        by_cases hx : x = tl
        · rw [if_pos hx, if_neg (hne hx), if_pos hx]
        · rw [if_neg hx, if_neg hx]

end Enqueue

namespace SegmentQueue

open QueueCell

variable {m : Mem} {heap s t x : ℕ} {l xs ys : List ℕ}

theorem zero_notMem (h : SegmentQueue m heap l) : 0 ∉ l :=
  fun hmem => h.links.forward.ne_zero_of_mem hmem rfl

section Removed

variable (h : SegmentQueue m heap (xs ++ s :: ys))
include h

theorem apart_parts : xs.Nodup ∧ ys.Nodup ∧ s ∉ xs ∧ s ∉ ys ∧ ∀ x ∈ xs, x ∉ ys := by
  obtain ⟨hxs, hsys, hdisj⟩ := List.nodup_append'.mp h.placed.nodup
  obtain ⟨hs, hys⟩ := List.nodup_cons.mp hsys
  refine ⟨hxs, hys, fun hmem => hdisj hmem List.mem_cons_self, hs, fun x hx hx' => ?_⟩
  exact hdisj hx (List.mem_cons_of_mem _ hx')

theorem is_head_iff : s = head.get m heap ↔ xs = [] := by
  rw [show head.get m heap = _ from h.links.forward.head_eq]
  obtain ⟨-, -, hs, -⟩ := h.apart_parts
  cases xs with
  | nil => simp
  | cons x xs =>
      simp only [List.cons_append, List.head?_cons, Option.getD_some, reduceCtorEq, iff_false]
      rintro rfl
      exact hs List.mem_cons_self

theorem is_tail_iff : s = tail.get m heap ↔ ys = [] := by
  rw [show tail.get m heap = _ from h.links.tail_eq]
  obtain ⟨-, -, -, hs, -⟩ := h.apart_parts
  rcases List.eq_nil_or_concat ys with rfl | ⟨ys', y, rfl⟩
  · simp
  · have hlast : (xs ++ s :: ys'.concat y).getLast? = some y := by
      rw [List.concat_eq_append, ← List.cons_append, ← List.append_assoc, List.getLast?_concat]
    rw [hlast]
    simp only [Option.getD_some, List.concat_eq_append, List.append_eq_nil_iff, reduceCtorEq,
      and_false, iff_false]
    rintro rfl
    exact hs (by simp)

theorem get_removed {d : QueueCell} (hd : d.Of (xs ++ s :: ys)) :
    d.get (mallocSegmentQueueRemove m heap s) heap =
      removedCell (fun c => c.get m heap) s d := by
  refine get_remove h.placed (by simp) h.zero_notMem ?_ ?_ hd
  · rw [h.links.prev_eq]
    exact fun hne => List.mem_append_left _ (getLast?_getD_mem hne)
  · rw [h.links.next_eq]
    exact fun hne => List.mem_append_right _ (List.mem_cons_of_mem _ (head?_getD_mem hne))

theorem next_removed (hx : x ∈ xs ++ s :: ys) :
    segmentNext (mallocSegmentQueueRemove m heap s) x =
      if x = s then 0 else if x = xs.getLast?.getD 0 then ys.head?.getD 0 else segmentNext m x := by
  rw [← get_next _ heap, h.get_removed (of_segment hx).2, ← h.links.prev_eq, ← h.links.next_eq]
  rfl

theorem prev_removed (hx : x ∈ xs ++ s :: ys) :
    segmentPrev (mallocSegmentQueueRemove m heap s) x =
      if x = s ∨ x = ys.head?.getD 0 then 0 else segmentPrev m x := by
  rw [← get_prev _ heap, h.get_removed (of_segment hx).1, ← h.links.next_eq]
  rfl

theorem head_removed : load (mallocSegmentQueueRemove m heap s) (heapQueueHead heap) 8 =
    if xs = [] then ys.head?.getD 0 else load m (heapQueueHead heap) 8 := by
  refine (h.get_removed of_queue.1).trans ?_
  rw [← h.links.next_eq]
  exact if_congr h.is_head_iff rfl rfl

theorem tail_removed : load (mallocSegmentQueueRemove m heap s) (heapQueueTail heap) 8 =
    if ys = [] then xs.getLast?.getD 0 else load m (heapQueueTail heap) 8 := by
  refine (h.get_removed of_queue.2).trans ?_
  rw [← h.links.prev_eq]
  exact if_congr h.is_tail_iff rfl rfl

theorem forward_removed :
    Linked (segmentNext (mallocSegmentQueueRemove m heap s))
      (load (mallocSegmentQueueRemove m heap s) (heapQueueHead heap) 8) (xs ++ ys) := by
  obtain ⟨hxs, -, hsx, hsy, hdisj⟩ := h.apart_parts
  obtain ⟨hseg, hrest⟩ := h.links.forward.at_node
  rw [h.head_removed]
  refine hseg.splice hxs (fun x hx => ?_) (fun x hx hlast => ?_) ?_
  · have hmem : x ∈ xs := List.mem_of_getLast? hx
    rw [h.next_removed (List.mem_append_left _ hmem), if_neg (ne_of_mem_of_not_mem hmem hsx), hx]
    exact if_pos rfl
  · rw [h.next_removed (List.mem_append_left _ hx), if_neg (ne_of_mem_of_not_mem hx hsx)]
    refine if_neg fun heq => hlast ?_
    rw [heq]
    exact getLast?_eq_some_getD hx
  · rw [← h.links.next_eq]
    refine hrest.congr fun y hy => ?_
    rw [h.next_removed (List.mem_append_right _ (List.mem_cons_of_mem _ hy)),
      if_neg (ne_of_mem_of_not_mem hy hsy)]
    refine if_neg fun heq => hdisj y ?_ hy
    have hne : y ≠ 0 := hrest.ne_zero_of_mem hy
    rw [heq] at hne ⊢
    exact getLast?_getD_mem hne

theorem backward_removed (hend : xs = [] ∨ ys = []) :
    Linked (segmentPrev (mallocSegmentQueueRemove m heap s))
      (load (mallocSegmentQueueRemove m heap s) (heapQueueTail heap) 8) (xs ++ ys).reverse := by
  obtain ⟨-, hys, hsx, hsy, -⟩ := h.apart_parts
  obtain ⟨hseg, hrest⟩ := h.links.backward_at
  rw [h.tail_removed]
  rcases hend with rfl | rfl
  · -- the successor becomes the first segment, with nothing before it
    have hspliced : Linked (segmentPrev (mallocSegmentQueueRemove m heap s))
        (if ys.reverse = [] then 0 else load m (heapQueueTail heap) 8) (ys.reverse ++ []) := by
      refine hseg.splice (List.nodup_reverse.mpr hys) (fun y hy => ?_) (fun y hy hfirst => ?_) rfl
      · rw [List.getLast?_reverse] at hy
        rw [h.prev_removed (by simp [List.mem_of_head? hy]), hy]
        exact if_pos (.inr rfl)
      · rw [List.getLast?_reverse] at hfirst
        rw [List.mem_reverse] at hy
        rw [h.prev_removed (by simp [hy])]
        refine if_neg (not_or.mpr ⟨ne_of_mem_of_not_mem hy hsy, fun heq => hfirst ?_⟩)
        exact heq ▸ head?_eq_some_getD hy
    simpa using hspliced
  · -- nothing follows, so no link back is touched
    rw [if_pos rfl, ← h.links.prev_eq, List.append_nil]
    refine hrest.congr fun x hx => ?_
    rw [List.mem_reverse] at hx
    rw [h.prev_removed (by simp [hx])]
    refine if_neg (not_or.mpr ⟨ne_of_mem_of_not_mem hx hsx, ?_⟩)
    exact ne_of_mem_of_not_mem (List.mem_append_left _ hx) h.zero_notMem

theorem unlinked_removed : segmentPrev (mallocSegmentQueueRemove m heap s) s = 0 ∧
    segmentNext (mallocSegmentQueueRemove m heap s) s = 0 := by
  rw [h.prev_removed (by simp), h.next_removed (by simp)]
  exact ⟨if_pos (.inl rfl), if_pos rfl⟩

theorem removes_of_end (hend : xs = [] ∨ ys = []) :
    Removes (mallocSegmentQueueRemove m heap s) heap s (xs ++ ys) := by
  refine ⟨⟨⟨h.forward_removed, h.backward_removed hend⟩, h.placed.sublist ?_⟩, h.unlinked_removed⟩
  exact List.Sublist.append_left (List.sublist_cons_self s ys) xs

theorem not_queue_of_between (hxs : xs ≠ []) (hys : ys ≠ []) :
    ¬ SegmentQueue (mallocSegmentQueueRemove m heap s) heap (xs ++ ys) := by
  intro hq
  obtain ⟨xs', x, rfl⟩ := List.eq_nil_or_concat xs |>.resolve_left hxs
  obtain ⟨y, ys', rfl⟩ := List.exists_cons_of_ne_nil hys
  have hlinks := hq.links
  rw [List.concat_eq_append, List.append_assoc] at hlinks
  have hback : segmentPrev (mallocSegmentQueueRemove m heap s) y = x := hlinks.inverse.2
  rw [h.prev_removed (by simp), if_pos (.inr rfl)] at hback
  exact h.zero_notMem (by simp [hback])

end Removed

section Enqueued

variable (h : SegmentQueue m heap l) (hplaced : Placed heap (t :: l)) (hne : t ≠ 0)
  (ht : t < 2 ^ 64)
include h hplaced hne ht

theorem get_enqueued {d : QueueCell} (hd : d.Of (t :: l)) :
    d.get (mallocSegmentQueueEnqueue m heap t) heap =
      enqueuedCell (fun c => c.get m heap) t d := by
  refine get_enqueue hplaced ?_ ht ?_ hd
  · rw [List.mem_cons, not_or]
    exact ⟨hne.symm, h.zero_notMem⟩
  · rw [show tail.get m heap = _ from h.links.tail_eq]
    exact getLast?_getD_mem

theorem next_enqueued (hx : x ∈ t :: l) :
    segmentNext (mallocSegmentQueueEnqueue m heap t) x =
      if x = t then 0 else if x = l.getLast?.getD 0 then t else segmentNext m x := by
  rw [← get_next _ heap, h.get_enqueued hplaced hne ht (of_segment hx).2, ← h.links.tail_eq]
  rfl

theorem prev_enqueued (hx : x ∈ t :: l) :
    segmentPrev (mallocSegmentQueueEnqueue m heap t) x =
      if x = t then load m (heapQueueTail heap) 8 else segmentPrev m x := by
  rw [← get_prev _ heap, h.get_enqueued hplaced hne ht (of_segment hx).1]
  rfl

theorem ends_enqueued :
    load (mallocSegmentQueueEnqueue m heap t) (heapQueueHead heap) 8 =
        (if l = [] then t else load m (heapQueueHead heap) 8) ∧
      load (mallocSegmentQueueEnqueue m heap t) (heapQueueTail heap) 8 = t := by
  have hempty : load m (heapQueueTail heap) 8 = 0 ↔ l = [] :=
    h.links.backward.eq_zero_iff.trans List.reverse_eq_nil_iff
  rw [← get_head, ← get_tail, h.get_enqueued hplaced hne ht of_queue.1,
    h.get_enqueued hplaced hne ht of_queue.2]
  simp only [enqueuedCell, get_head, get_tail, hempty, and_self]

/-- **`enqueue` appends.** -/
theorem enqueue : SegmentQueue (mallocSegmentQueueEnqueue m heap t) heap (l ++ [t]) := by
  obtain ⟨hnotin, hnodup⟩ := List.nodup_cons.mp hplaced.nodup
  obtain ⟨hhead, htail⟩ := h.ends_enqueued hplaced hne ht
  have hnext := fun x hx => h.next_enqueued (x := x) hplaced hne ht hx
  have hprev := fun x hx => h.prev_enqueued (x := x) hplaced hne ht hx
  refine ⟨⟨?_, ?_⟩, hplaced.perm (List.perm_append_singleton t l).symm⟩
  · rw [hhead]
    have hforward := h.links.forward
    rw [← List.append_nil l, linked_append_iff] at hforward
    obtain ⟨_, hseg, -⟩ := hforward
    refine hseg.splice hnodup (fun x hx => ?_) (fun x hx hlast => ?_) ⟨rfl, hne, ?_⟩
    · have hmem : x ∈ l := List.mem_of_getLast? hx
      rw [hnext x (List.mem_cons_of_mem _ hmem), if_neg (ne_of_mem_of_not_mem hmem hnotin), hx]
      exact if_pos rfl
    · rw [hnext x (List.mem_cons_of_mem _ hx), if_neg (ne_of_mem_of_not_mem hx hnotin)]
      refine if_neg fun heq => hlast ?_
      rw [heq]
      exact getLast?_eq_some_getD hx
    · rw [hnext t List.mem_cons_self]
      exact if_pos rfl
  · rw [htail, List.reverse_concat]
    refine ⟨rfl, hne, ?_⟩
    rw [hprev t List.mem_cons_self, if_pos rfl]
    refine h.links.backward.congr fun x hx => ?_
    rw [List.mem_reverse] at hx
    rw [hprev x (List.mem_cons_of_mem _ hx), if_neg (ne_of_mem_of_not_mem hx hnotin)]

end Enqueued

end SegmentQueue

theorem segmentQueue_nil (heap : ℕ) : SegmentQueue (fun _ => 0) heap [] := by
  refine ⟨⟨?_, ?_⟩, List.Pairwise.nil, fun x hx => nomatch hx⟩
  · exact load_zero _ _
  · exact load_zero _ _

/-- Three segments, enqueued one after the other. -/
def threeSegments : Mem :=
  mallocSegmentQueueEnqueue (mallocSegmentQueueEnqueue (mallocSegmentQueueEnqueue (fun _ => 0)
    0x1000 0x200000) 0x1000 0x400000) 0x1000 0x600000

theorem placed_three : Placed 0x1000 [0x600000, 0x200000, 0x400000] := by
  constructor
  · simp [Span.Apart]
  · simp [Span.Apart, queueSpan, heapQueueHead, numSizeClasses, smallObjSizeMax]

theorem segmentQueue_three :
    SegmentQueue threeSegments 0x1000 [0x200000, 0x400000, 0x600000] := by
  have hone := (segmentQueue_nil 0x1000).enqueue (t := 0x200000) (placed_three.sublist (by simp))
    (by decide) (by decide)
  have htwo := hone.enqueue (t := 0x400000) (placed_three.tail.perm (List.Perm.swap _ _ _))
    (by decide) (by decide)
  exact htwo.enqueue placed_three (by decide) (by decide)

/-- **The segment queue as a doubly linked list.**  `remove` takes a segment out of a queue exactly if
it is first or last there; between two others the queue is no longer linked back to the
predecessor.  `enqueue` appends. -/
theorem segment_queue_remove_enqueue {m : Mem} {heap : ℕ} {l : List ℕ} (h : SegmentQueue m heap l) :
    (∀ xs s ys, l = xs ++ s :: ys →
      (Removes (mallocSegmentQueueRemove m heap s) heap s (xs ++ ys) ↔ xs = [] ∨ ys = [])) ∧
    ∀ t, t ≠ 0 → t < 2 ^ 64 → Placed heap (t :: l) →
      SegmentQueue (mallocSegmentQueueEnqueue m heap t) heap (l ++ [t]) := by
  constructor
  · rintro xs s ys rfl
    refine ⟨fun hremoves => ?_, h.removes_of_end⟩
    by_contra hboth
    obtain ⟨hxs, hys⟩ := not_or.mp hboth
    exact h.not_queue_of_between hxs hys hremoves.queue
  · intro t hne ht hplaced
    exact h.enqueue hplaced hne ht

theorem segment_queue_remove_enqueue_three :
    SegmentQueue threeSegments 0x1000 [0x200000, 0x400000, 0x600000] ∧
      Removes (mallocSegmentQueueRemove threeSegments 0x1000 0x200000) 0x1000 0x200000
        [0x400000, 0x600000] :=
  ⟨segmentQueue_three,
    ((segment_queue_remove_enqueue segmentQueue_three).1 [] _ _ rfl).mpr (.inl rfl)⟩

/-- The segment in the middle is removed: the last one does not lead back to the first. -/
theorem remove_between_loses_prev :
    SegmentQueue threeSegments 0x1000 [0x200000, 0x400000, 0x600000] ∧
      segmentPrev (mallocSegmentQueueRemove threeSegments 0x1000 0x400000) 0x600000 = 0 ∧
      ¬ Removes (mallocSegmentQueueRemove threeSegments 0x1000 0x400000) 0x1000 0x400000
        [0x200000, 0x600000] := by
  have h : SegmentQueue threeSegments 0x1000 ([0x200000] ++ 0x400000 :: [0x600000]) :=
    segmentQueue_three
  refine ⟨segmentQueue_three, ?_, fun hremoves => ?_⟩
  · rw [h.prev_removed (by simp)]
    exact if_pos (.inr rfl)
  · exact h.not_queue_of_between (List.cons_ne_nil _ _) (List.cons_ne_nil _ _) hremoves.queue

/-! ### What the heap does with its queue -/

/-- The two calls that the heap makes. -/
inductive QueueOp where
  | pop
  | enqueue (segment : ℕ)

namespace QueueOp

def exec (heap : ℕ) (m : Mem) : QueueOp → Mem
  | pop => mallocSegmentQueuePop m heap
  | enqueue segment => mallocSegmentQueueEnqueue m heap segment

/-- The same on a list. -/
def spec (l : List ℕ) : QueueOp → List ℕ
  | pop => l.tail
  | enqueue segment => l ++ [segment]

/-- A segment that is enqueued is new memory. -/
def Ready (heap : ℕ) (l : List ℕ) : QueueOp → Prop
  | pop => True
  | enqueue segment => segment ≠ 0 ∧ segment < 2 ^ 64 ∧ Placed heap (segment :: l)

end QueueOp

variable {m : Mem} {heap : ℕ} {l : List ℕ}

theorem SegmentQueue.pop (h : SegmentQueue m heap l) :
    SegmentQueue (mallocSegmentQueuePop m heap) heap l.tail := by
  unfold mallocSegmentQueuePop
  cases l with
  | nil =>
      have hhead : load m (heapQueueHead heap) 8 = 0 := h.links.forward
      rw [if_neg (not_not.mpr hhead)]
      exact h
  | cons s ys =>
      have hhead : load m (heapQueueHead heap) 8 = s := h.links.forward.1
      rw [hhead, if_pos h.links.forward.2.1]
      have hfirst : SegmentQueue m heap ([] ++ s :: ys) := h
      exact (hfirst.removes_of_end (.inl rfl)).queue

theorem SegmentQueue.step {op : QueueOp} (h : SegmentQueue m heap l) (hready : op.Ready heap l) :
    SegmentQueue (op.exec heap m) heap (op.spec l) := by
  cases op with
  | pop => exact h.pop
  | enqueue segment =>
      obtain ⟨hne, hlt, hplaced⟩ := hready
      rw [QueueOp.exec, QueueOp.spec]
      exact h.enqueue hplaced hne hlt

/-- **The heap's queue is a list.** Segments leave at the head and come in at the tail, and along every
sequence of calls the queue is well formed. -/
theorem segmentQueue_run {ops : List QueueOp} (h : SegmentQueue m heap l)
    (hops : Guarded QueueOp.spec (QueueOp.Ready heap) l ops) :
    SegmentQueue (run (QueueOp.exec heap) m ops) heap (run QueueOp.spec l ops) := by
  refine run_simulation (R := fun m l => SegmentQueue m heap l) ?_ hops h
  intro m l op hready hqueue
  exact hqueue.step hready

/-- Two segments come in, and the first one leaves. -/
theorem segmentQueue_run_two :
    SegmentQueue (run (QueueOp.exec 0x1000) (fun _ => 0)
      [.enqueue 0x200000, .enqueue 0x400000, .pop]) 0x1000 [0x400000] :=
  segmentQueue_run (segmentQueue_nil 0x1000)
    ⟨⟨by decide, by decide, placed_three.sublist (by simp)⟩,
      ⟨by decide, by decide, placed_three.tail.perm (List.Perm.swap _ _ _)⟩, trivial, trivial⟩

/-- **The queue of a heap is one of these**, with one segment at most: `remove` is never called on a
segment between two others. -/
theorem HeapInv.segmentQueue {E : HeapEnv} {st : UserMem} {live : List MallocObj}
    (h : HeapInv E st live) : ∃ l, SegmentQueue st.mem E.heap l ∧ l.length ≤ 1 := by
  obtain ⟨b, hq, hobt⟩ := h.queue
  by_cases hb : b = 0
  · refine ⟨[], ⟨⟨?_, ?_⟩, List.Pairwise.nil, fun x hx => nomatch hx⟩, by simp⟩
    · exact hq.head.trans hb
    · exact hq.tail.trans hb
  · refine ⟨[b], ⟨⟨⟨hq.head, hb, (hq.links hb).2⟩, ⟨hq.tail, hb, (hq.links hb).1⟩⟩,
      List.pairwise_singleton _ _, ?_⟩, le_rfl⟩
    have hapart := (hobt hb).heapApart
    simp only [List.mem_singleton, forall_eq]
    simp only [Span.Apart, segmentSpan, heapSpan, mallocSegmentSize, heapSpan_size] at hapart
    simp only [Span.Apart, queueSpan, heapQueueHead, numSizeClasses_eq]
    omega

end Manticore
