import Waste.Lib.ByteMemory

/-!
# Doubly linked lists in a byte memory

The nodes are addresses, and each holds the addresses of its neighbours in two words at
fixed offsets; zero ends the list on both sides.  `Listed L m head l` says that the nodes
reached from `head` are those of `l`, in this order.  Unlinking a node and pushing one to
the front keep it, and write nothing but link words of the nodes.
-/

namespace DoublyLinked

open ByteMemory List

/-- The offsets of the two link words.  Nodes are at least `width` apart. -/
structure Layout where
  back : Nat
  forth : Nat
  width : Nat
  fields : back + 4 ≤ forth
  fits : forth + 4 ≤ width

variable {L : Layout} {m m' : Bytes} {l xs ys : List Nat} {a b prev next head v lo hi : Nat}

def headOr (l : List Nat) (d : Nat) : Nat := l.head?.getD d

def lastOr (l : List Nat) (d : Nat) : Nat := l.getLast?.getD d

@[simp] theorem headOr_nil (d : Nat) : headOr [] d = d := rfl

@[simp] theorem headOr_cons (a : Nat) (l : List Nat) (d : Nat) : headOr (a :: l) d = a := rfl

@[simp] theorem lastOr_nil (d : Nat) : lastOr [] d = d := rfl

@[simp] theorem lastOr_cons (a : Nat) (l : List Nat) (d : Nat) :
    lastOr (a :: l) d = lastOr l a := by
  unfold lastOr
  rw [getLast?_cons]
  cases l.getLast? <;> rfl

theorem lastOr_mem (h : l ≠ []) (d : Nat) : lastOr l d ∈ l := by
  unfold lastOr
  rw [getLast?_eq_some_getLast h]
  exact getLast_mem h

/-- A part of the list, between the nodes `prev` and `next`. -/
def Seg (L : Layout) (m : Bytes) : Nat → List Nat → Nat → Prop
  | _, [], _ => True
  | prev, a :: rest, next =>
    load m (a + L.back) = prev ∧ load m (a + L.forth) = headOr rest next ∧ Seg L m a rest next

/-- Nodes do not overlap. -/
def Spaced (L : Layout) (l : List Nat) : Prop :=
  l.Pairwise fun a b => a + L.width ≤ b ∨ b + L.width ≤ a

theorem headOr_append (xs ys : List Nat) (d : Nat) :
    headOr (xs ++ ys) d = headOr xs (headOr ys d) := by
  cases xs <;> rfl

theorem seg_append : Seg L m prev (xs ++ ys) next ↔
    Seg L m prev xs (headOr ys next) ∧ Seg L m (lastOr xs prev) ys next := by
  induction xs generalizing prev with
  | nil => simp [Seg]
  | cons x xs ih =>
    rw [cons_append, lastOr_cons]
    simp only [Seg, headOr_append, ih, and_assoc]

theorem Seg.congr (h : Seg L m prev l next)
    (hsame : ∀ a ∈ l, SameOn m m' (a + L.back) (a + L.forth + 4)) : Seg L m' prev l next := by
  induction l generalizing prev with
  | nil => trivial
  | cons a _ ih =>
    obtain ⟨hback, hforth, hrest⟩ := h
    have ha := hsame a mem_cons_self
    have hfields := L.fields
    refine ⟨?_, ?_, ih hrest fun b hb => hsame b (mem_cons_of_mem a hb)⟩
    · rw [ha.load (Nat.le_refl _) (by omega)]
      exact hback
    · rw [ha.load (by omega) (Nat.le_refl _)]
      exact hforth

theorem link_apart (h : a + L.width ≤ b ∨ b + L.width ≤ a) :
    b + L.forth + 4 ≤ a + L.back ∨ a + L.forth + 4 ≤ b + L.back := by
  have hfits := L.fits
  omega

theorem Seg.store_apart (h : Seg L m prev l next) {x : Nat} (hx : b + L.back ≤ x)
    (hx' : x + 4 ≤ b + L.forth + 4) (hapart : ∀ a ∈ l, a + L.width ≤ b ∨ b + L.width ≤ a) :
    Seg L (store x v m) prev l next := by
  refine h.congr fun a ha => store_sameOn ?_
  have hlink := link_apart (hapart a ha)
  omega

theorem Seg.set_next (h : Seg L m prev l next) (hl : l ≠ []) (hspaced : Spaced L l)
    (hv : v < 2 ^ 32) : Seg L (store (lastOr l 0 + L.forth) v m) prev l v := by
  have hfields := L.fields
  induction l generalizing prev with
  | nil => exact absurd rfl hl
  | cons a rest ih =>
    obtain ⟨hback, hforth, hrest⟩ := h
    cases rest with
    | nil =>
      refine ⟨?_, ?_, trivial⟩
      · rw [lastOr_cons, lastOr_nil, load_store_of_apart (by omega)]
        exact hback
      · rw [lastOr_cons, lastOr_nil, load_store_self hv]
        rfl
    | cons b rest =>
      have hlast : lastOr (a :: b :: rest) 0 = lastOr (b :: rest) 0 := by
        rw [lastOr_cons, lastOr_cons, lastOr_cons]
      obtain ⟨hfar, hspaced⟩ := pairwise_cons.mp hspaced
      have hapart := link_apart (hfar _ (lastOr_mem (cons_ne_nil b rest) 0))
      refine ⟨?_, ?_, ih hrest (cons_ne_nil b rest) hspaced⟩
      · rw [load_store_of_apart (by omega)]
        exact hback
      · rw [load_store_of_apart (by omega)]
        exact hforth

theorem Seg.set_prev (h : Seg L m prev (a :: l) next) (hspaced : Spaced L (a :: l))
    (hv : v < 2 ^ 32) : Seg L (store (a + L.back) v m) v (a :: l) next := by
  have hfields := L.fields
  obtain ⟨-, hforth, hrest⟩ := h
  obtain ⟨hfar, -⟩ := pairwise_cons.mp hspaced
  refine ⟨load_store_self hv, ?_, ?_⟩
  · rw [load_store_of_apart (by omega)]
    exact hforth
  · exact hrest.store_apart (Nat.le_refl _) (by omega) fun c hc => (hfar c hc).symm

/-- The list whose first node is `head`. -/
structure Listed (L : Layout) (m : Bytes) (head : Nat) (l : List Nat) : Prop where
  spaced : Spaced L l
  node : ∀ a ∈ l, 0 < a ∧ a < 2 ^ 32
  seg : Seg L m 0 l 0
  head : head = headOr l 0

theorem Listed.congr (h : Listed L m head l)
    (hsame : ∀ a ∈ l, SameOn m m' (a + L.back) (a + L.forth + 4)) : Listed L m' head l :=
  { h with seg := h.seg.congr hsame }

theorem headOr_node (hnode : ∀ a ∈ l, 0 < a ∧ a < 2 ^ 32) :
    headOr l 0 < 2 ^ 32 ∧ (headOr l 0 = 0 ↔ l = []) := by
  cases l with
  | nil => exact ⟨by decide, by simp⟩
  | cons a l =>
    obtain ⟨hpos, hlt⟩ := hnode a mem_cons_self
    exact ⟨hlt, by simp; omega⟩

theorem lastOr_node (hnode : ∀ a ∈ l, 0 < a ∧ a < 2 ^ 32) :
    lastOr l 0 < 2 ^ 32 ∧ (lastOr l 0 = 0 ↔ l = []) := by
  by_cases hl : l = []
  · subst hl
    exact ⟨by decide, by simp⟩
  · obtain ⟨hpos, hlt⟩ := hnode _ (lastOr_mem hl 0)
    exact ⟨hlt, by simp [hl]; omega⟩

/-- The address range avoids the link words of the nodes. -/
def Avoids (L : Layout) (l : List Nat) (lo hi : Nat) : Prop :=
  ∀ b ∈ l, b + L.forth + 4 ≤ lo ∨ hi ≤ b + L.back

/-! ## Unlinking -/

/-- The neighbours of the node `a` are joined; the answer is the memory and the new head. -/
def unlink (L : Layout) (a : Nat) (m : Bytes) (head : Nat) : Bytes × Nat :=
  let prev := load m (a + L.back)
  let next := load m (a + L.forth)
  let joined := if prev ≠ 0 then store (prev + L.forth) next m else m
  (if next ≠ 0 then store (next + L.back) prev joined else joined, if prev ≠ 0 then head else next)

theorem unlink_eq (h : Listed L m head (xs ++ a :: ys)) :
    let joined := if xs ≠ [] then store (lastOr xs 0 + L.forth) (headOr ys 0) m else m
    unlink L a m head =
      (if ys ≠ [] then store (headOr ys 0 + L.back) (lastOr xs 0) joined else joined,
        headOr (xs ++ ys) 0) := by
  obtain ⟨-, hnode, hseg, hhead⟩ := h
  obtain ⟨-, hback, hforth, -⟩ := seg_append.mp hseg
  have hxs := (lastOr_node fun b hb => hnode b (mem_append_left _ hb)).2
  have hys := (headOr_node fun b hb => hnode b (mem_append_right _ (mem_cons_of_mem a hb))).2
  unfold unlink
  simp only [hback, hforth, ne_eq, hxs, hys, ite_not]
  congr 1
  rw [hhead]
  cases xs <;> simp

theorem listed_unlink (h : Listed L m head (xs ++ a :: ys)) :
    Listed L (unlink L a m head).1 (unlink L a m head).2 (xs ++ ys) := by
  have hsub : (xs ++ ys).Sublist (xs ++ a :: ys) := (sublist_cons_self a ys).append_left xs
  have hspaced : Spaced L (xs ++ ys) := h.spaced.sublist hsub
  have hnode : ∀ b ∈ xs ++ ys, 0 < b ∧ b < 2 ^ 32 := fun b hb => h.node b (hsub.subset hb)
  have hnodex : ∀ b ∈ xs, 0 < b ∧ b < 2 ^ 32 := fun b hb => hnode b (mem_append_left _ hb)
  have hnodey : ∀ b ∈ ys, 0 < b ∧ b < 2 ^ 32 := fun b hb => hnode b (mem_append_right _ hb)
  obtain ⟨hspacedx, hspacedy, hbetween⟩ := pairwise_append.mp hspaced
  obtain ⟨hsegx, -, -, hsegy⟩ := seg_append.mp h.seg
  have hfields := L.fields
  rw [unlink_eq h]
  refine ⟨hspaced, hnode, seg_append.mpr ?_, rfl⟩
  -- the last node before `a` and the first one after it are joined, each if there is one
  have hjoinedx : Seg L (if xs ≠ [] then store (lastOr xs 0 + L.forth) (headOr ys 0) m else m) 0 xs
      (headOr ys 0) := by
    split
    · next hxs => exact hsegx.set_next hxs hspacedx (headOr_node hnodey).1
    · next hxs =>
      obtain rfl := not_not.mp hxs
      trivial
  have hjoinedy : Seg L (if xs ≠ [] then store (lastOr xs 0 + L.forth) (headOr ys 0) m
      else m) a ys 0 := by
    split
    · next hxs =>
      refine hsegy.store_apart (by omega) (Nat.le_refl _) fun b hb => ?_
      exact (hbetween _ (lastOr_mem hxs 0) b hb).symm
    · exact hsegy
  generalize (if xs ≠ [] then store (lastOr xs 0 + L.forth) (headOr ys 0) m else m) = m1
    at hjoinedx hjoinedy
  cases ys with
  | nil => exact ⟨hjoinedx, trivial⟩
  | cons y ys =>
    refine ⟨?_, hjoinedy.set_prev hspacedy (lastOr_node hnodex).1⟩
    refine hjoinedx.store_apart (Nat.le_refl _) (by omega) fun b hb => ?_
    exact hbetween b hb y mem_cons_self

theorem unlink_sameOn (h : Listed L m head (xs ++ a :: ys)) (havoids : Avoids L (xs ++ ys) lo hi) :
    SameOn m (unlink L a m head).1 lo hi := by
  have hfields := L.fields
  have hfirst : SameOn m (if xs ≠ [] then store (lastOr xs 0 + L.forth) (headOr ys 0) m
      else m) lo hi := by
    split
    · next hxs =>
      have hlast := havoids _ (mem_append_left ys (lastOr_mem hxs 0))
      exact store_sameOn (by omega)
    · exact .refl m lo hi
  rw [unlink_eq h]
  cases ys with
  | nil => exact hfirst
  | cons y ys =>
    have hy := havoids y (mem_append_right xs mem_cons_self)
    rw [if_pos (cons_ne_nil y ys), headOr_cons]
    exact hfirst.trans (store_sameOn (by omega))

/-! ## Pushing to the front -/

/-- The node `a` becomes the head. -/
def push (L : Layout) (a : Nat) (m : Bytes) (head : Nat) : Bytes :=
  let linked := store (a + L.forth) head (store (a + L.back) 0 m)
  if head ≠ 0 then store (head + L.back) a linked else linked

theorem listed_push (h : Listed L m head l) (ha : 0 < a ∧ a < 2 ^ 32)
    (hapart : ∀ b ∈ l, a + L.width ≤ b ∨ b + L.width ≤ a) :
    Listed L (push L a m head) a (a :: l) := by
  have hfields := L.fields
  obtain ⟨hspaced, hnode, hseg, hhead⟩ := h
  have hspaced' : Spaced L (a :: l) := pairwise_cons.mpr ⟨hapart, hspaced⟩
  have hnode' : ∀ b ∈ a :: l, 0 < b ∧ b < 2 ^ 32 := by
    intro b hb
    rcases List.mem_cons.mp hb with rfl | hb
    · exact ha
    · exact hnode b hb
  have hlinked : Seg L (store (a + L.forth) head (store (a + L.back) 0 m)) 0 l 0 := by
    refine (hseg.store_apart (Nat.le_refl _) (by omega) fun b hb => (hapart b hb).symm).store_apart
      (by omega) (Nat.le_refl _) fun b hb => (hapart b hb).symm
  have hback : load (store (a + L.forth) head (store (a + L.back) 0 m)) (a + L.back) = 0 := by
    rw [load_store_of_apart (by omega)]
    exact load_store_self (by decide)
  have hforth : load (store (a + L.forth) head (store (a + L.back) 0 m)) (a + L.forth) = head :=
    load_store_self (hhead ▸ (headOr_node hnode).1)
  refine ⟨hspaced', hnode', ?_, rfl⟩
  unfold DoublyLinked.push
  generalize store (a + L.forth) head (store (a + L.back) 0 m) = m1 at hlinked hback hforth
  cases l with
  | nil =>
    rw [hhead, headOr_nil, if_neg (not_not.mpr rfl)]
    exact ⟨hback, hforth.trans hhead, trivial⟩
  | cons b l =>
    have hb := hnode b mem_cons_self
    subst hhead
    rw [if_pos (Nat.ne_of_gt hb.1)]
    have hlink := link_apart (hapart head mem_cons_self)
    refine ⟨?_, ?_, hlinked.set_prev hspaced ha.2⟩
    · rw [load_store_of_apart (by omega)]
      exact hback
    · rw [load_store_of_apart (by omega)]
      exact hforth

theorem push_sameOn (h : Listed L m head l) (havoids : Avoids L (a :: l) lo hi) :
    SameOn m (push L a m head) lo hi := by
  have hfields := L.fields
  have ha := havoids a mem_cons_self
  have hlinked : SameOn m (store (a + L.forth) head (store (a + L.back) 0 m)) lo hi :=
    (store_sameOn (by omega)).trans (store_sameOn (by omega))
  unfold push
  split
  · next hhead =>
    refine hlinked.trans (store_sameOn ?_)
    have hmem : head ∈ l := by
      cases l with
      | nil => exact absurd h.head hhead
      | cons b l => exact h.head ▸ mem_cons_self
    have hb := havoids head (mem_cons_of_mem a hmem)
    omega
  · exact hlinked

end DoublyLinked
