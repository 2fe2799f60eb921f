import CallLesson.Framework.Heap

/-! # Binary trees with parent pointers

    A tree in the heap is described by the tree of its addresses and values, seen from
    any of its nodes: a subtree in the focus and the path from it up to the root, with
    what hangs off that path. The focus can be moved along the path, so that a program that
    works on a node is specified by what it does to the subtree there. -/

namespace CallLesson.LinkedTree

/-! ## Nodes -/

/-- Left and right, so that a fact and its mirror image are one. -/
inductive Side where
  | left
  | right
  deriving DecidableEq

open List Heap

variable {β : Type}

namespace Side

def other : Side → Side
  | .left => .right
  | .right => .left

theorem eq_or_eq_other (d e : Side) : e = d ∨ e = d.other := by
  cases d <;> cases e <;> simp [other]

@[simp] theorem other_other (d : Side) : d.other.other = d := by cases d <;> rfl

@[simp] theorem other_ne (d : Side) : d.other ≠ d := by cases d <;> simp [other]

/-- What stands from left to right, read towards a side. -/
def along {β : Type} (d : Side) (l : List β) : List β :=
  match d with
  | .left => l.reverse
  | .right => l

@[simp] theorem along_nil (d : Side) : d.along ([] : List β) = [] := by cases d <;> rfl

theorem along_other (d : Side) (l : List β) : d.other.along l = (d.along l).reverse := by
  cases d <;> simp [along, other]

theorem mem_along {d : Side} {l : List β} {x : β} : x ∈ d.along l ↔ x ∈ l := by
  cases d <;> simp [along]

theorem map_along {γ : Type} (g : β → γ) (d : Side) (l : List β) :
    (d.along l).map g = d.along (l.map g) := by
  cases d <;> simp [along]

end Side

/-- A node of a binary tree, as it is in the heap. -/
structure Node (α : Type) where
  left : Ptr
  right : Ptr
  parent : Ptr
  val : α
  deriving DecidableEq

namespace Node

variable {α : Type}

def child (n : Node α) : Side → Ptr
  | .left => n.left
  | .right => n.right

def setChild (d : Side) (p : Ptr) (n : Node α) : Node α :=
  match d with
  | .left => { n with left := p }
  | .right => { n with right := p }

def setParent (p : Ptr) (n : Node α) : Node α := { n with parent := p }

def mapVal (φ : α → α) (n : Node α) : Node α := { n with val := φ n.val }

/-- The node with the given children, the first of them on side `d`. -/
def of (d : Side) (near far parent : Ptr) (x : α) : Node α :=
  match d with
  | .left => ⟨near, far, parent, x⟩
  | .right => ⟨far, near, parent, x⟩

variable {d : Side} {near far p q : Ptr} {x : α}

@[simp] theorem child_of : (of d near far p x).child d = near := by cases d <;> rfl

@[simp] theorem child_of_other : (of d near far p x).child d.other = far := by cases d <;> rfl

@[simp] theorem parent_of : (of d near far p x).parent = p := by cases d <;> rfl

@[simp] theorem val_of : (of d near far p x).val = x := by cases d <;> rfl

@[simp] theorem setChild_of : setChild d q (of d near far p x) = of d q far p x := by
  cases d <;> rfl

@[simp] theorem setChild_of_other : setChild d.other q (of d near far p x) = of d near q p x := by
  cases d <;> rfl

@[simp] theorem setParent_of : setParent q (of d near far p x) = of d near far q x := by
  cases d <;> rfl

@[simp] theorem mapVal_of {φ : α → α} : mapVal φ (of d near far p x) = of d near far p (φ x) := by
  cases d <;> rfl

theorem of_other : of d.other near far p x = of d far near p x := by cases d <;> rfl

end Node

/-! ## Trees -/

/-- The tree of the addresses and values of the nodes. -/
inductive BinTree (α : Type) where
  | nil
  | node (l : BinTree α) (a : Nat) (x : α) (r : BinTree α)
  deriving DecidableEq

variable {D : Type}

namespace BinTree

variable {α : Type}

def ptr : BinTree α → Ptr
  | nil => none
  | node _ a _ _ => some a

def addrs : BinTree α → List Nat
  | nil => []
  | node l a _ r => l.addrs ++ a :: r.addrs

/-- The values from left to right. -/
def inorder : BinTree α → List α
  | nil => []
  | node l _ x r => l.inorder ++ x :: r.inorder

def height : BinTree α → Nat
  | nil => 0
  | node l _ _ r => max l.height r.height + 1

/-- The tree with the given subtrees, the first of them on side `d`. -/
def mk (d : Side) (near : BinTree α) (a : Nat) (x : α) (far : BinTree α) : BinTree α :=
  match d with
  | .left => node near a x far
  | .right => node far a x near

/-- The heap holds the nodes of the tree, and the root has the given parent. -/
def Rep (h : Heap (Node α)) : BinTree α → Ptr → Prop
  | nil, _ => True
  | node l a x r, p =>
      h.cells a = some ⟨l.ptr, r.ptr, p, x⟩ ∧ l.Rep h (some a) ∧ r.Rep h (some a)

variable {d : Side} {near far t : BinTree α} {a : Nat} {x : α} {h h' : Heap (Node α)} {p : Ptr}

@[simp] theorem ptr_mk : (mk d near a x far).ptr = some a := by cases d <;> rfl

theorem mk_other : mk d.other near a x far = mk d far a x near := by cases d <;> rfl

theorem exists_mk (d : Side) (ht : t ≠ nil) : ∃ near a x far, t = mk d near a x far := by
  cases t with
  | nil => exact absurd rfl ht
  | node l a x r =>
    cases d with
    | left => exact ⟨l, a, x, r, rfl⟩
    | right => exact ⟨r, a, x, l, rfl⟩

theorem exists_mk_side (d e : Side) (near : BinTree α) (a : Nat) (x : α) (far : BinTree α) :
    ∃ l r, mk e near a x far = mk d l a x r := by
  rcases Side.eq_or_eq_other d e with rfl | rfl
  · exact ⟨near, far, rfl⟩
  · exact ⟨far, near, mk_other⟩

theorem ptr_eq_none : t.ptr = none ↔ t = nil := by
  cases t <;> simp [ptr]

theorem height_mk : (mk d near a x far).height = max near.height far.height + 1 := by
  cases d with
  | left => rfl
  | right => exact congrArg (· + 1) (max_comm far.height near.height)

theorem height_le_length (t : BinTree α) : t.height ≤ t.inorder.length := by
  induction t with
  | nil => exact le_refl 0
  | node l a x r ihl ihr =>
    simp only [height, inorder, length_append, length_cons]
    omega

theorem addrs_mk : (mk d near a x far).addrs.Perm (a :: (near.addrs ++ far.addrs)) := by
  cases d with
  | left => exact perm_middle
  | right => exact perm_middle.trans (perm_append_comm.cons a)

theorem along_addrs_mk :
    d.along (mk d near a x far).addrs = d.along far.addrs ++ a :: d.along near.addrs := by
  cases d <;> simp [mk, addrs, Side.along]

section rotate

variable (d : Side) (A B C : BinTree α) (p g : Nat) (x y : α)

theorem addrs_rotate : (mk d A p x (mk d B g y C)).addrs = (mk d (mk d A p x B) g y C).addrs := by
  cases d <;> simp [mk, addrs]

end rotate

section items

variable {D : Type} {φ : α → D} {A B C U : BinTree α} {p g c : Nat} {x x' y y' z z' : α}

def items (φ : α → D) (t : BinTree α) : List D := t.inorder.map φ

/-- The nodes from left to right, as their addresses and data. -/
def places (φ : α → D) : BinTree α → List (Nat × D)
  | nil => []
  | node l a x r => l.places φ ++ (a, φ x) :: r.places φ

theorem map_snd_places (t : BinTree α) : (t.places φ).map Prod.snd = t.items φ := by
  unfold items
  induction t with
  | nil => rfl
  | node l a x r ihl ihr => simp [places, inorder, ihl, ihr]

theorem map_fst_places (t : BinTree α) : (t.places φ).map Prod.fst = t.addrs := by
  induction t with
  | nil => rfl
  | node l a x r ihl ihr => simp [places, addrs, ihl, ihr]

theorem length_places (t : BinTree α) : (t.places φ).length = t.inorder.length := by
  rw [← length_map Prod.snd, map_snd_places, items, length_map]

theorem map_places {E : Type} (g : D → E) (t : BinTree α) :
    (t.places φ).map (fun e => (e.1, g e.2)) = t.places fun x => g (φ x) := by
  induction t with
  | nil => rfl
  | node l a x r ihl ihr => simp [places, ihl, ihr]

theorem along_places_mk : d.along ((mk d near a x far).places φ) =
    d.along (far.places φ) ++ (a, φ x) :: d.along (near.places φ) := by
  cases d <;> simp [mk, places, Side.along]

theorem places_mk_congr {near' far' : BinTree α} (hnear : near.places φ = near'.places φ)
    (hx : φ x = φ x') (hfar : far.places φ = far'.places φ) :
    (mk d near a x far).places φ = (mk d near' a x' far').places φ := by
  cases d <;> simp [mk, places, hnear, hx, hfar]

theorem places_rotate (hx : φ x = φ x') (hy : φ y = φ y') :
    (mk d A p x (mk d B g y C)).places φ = (mk d (mk d A p x' B) g y' C).places φ := by
  cases d <;> simp [mk, places, hx, hy]

theorem places_rotate_twice (hx : φ x = φ x') (hy : φ y = φ y') (hz : φ z = φ z') :
    (mk d (mk d.other A p x B) c z (mk d C g y U)).places φ =
      (mk d (mk d.other (mk d.other C c z' A) p x' B) g y' U).places φ := by
  refine (places_rotate hz hy).trans (places_mk_congr ?_ rfl rfl)
  rw [← mk_other]
  exact places_rotate rfl hx

end items

theorem rep_mk : (mk d near a x far).Rep h p ↔
    h.cells a = some (Node.of d near.ptr far.ptr p x) ∧ near.Rep h (some a) ∧
      far.Rep h (some a) := by
  cases d with
  | left => exact Iff.rfl
  | right => exact and_congr Iff.rfl and_comm

theorem Rep.frame (hagree : ∀ a ∈ t.addrs, h'.cells a = h.cells a) :
    ∀ {p : Ptr}, t.Rep h p → t.Rep h' p := by
  induction t with
  | nil => exact fun _ => trivial
  | node l a x r ihl ihr =>
    intro p ⟨ha, hl, hr⟩
    refine ⟨?_, ihl (fun b hb => hagree b ?_) hl, ihr (fun b hb => hagree b ?_) hr⟩
    · rw [hagree a (by simp [addrs]), ha]
    · simp [addrs, hb]
    · simp [addrs, hb]

theorem Rep.setParent (hrep : t.Rep h p) (hnodup : t.addrs.Nodup) (q : Ptr) :
    t.Rep (h.updateAt t.ptr (Node.setParent q)) q := by
  cases t with
  | nil => trivial
  | node l a x r =>
    obtain ⟨ha, hl, hr⟩ := hrep
    have hnot : ∀ b ∈ l.addrs ++ r.addrs, b ≠ a := fun b hb hba =>
      (nodup_cons.mp (perm_middle.nodup_iff.mp hnodup)).1 (hba ▸ hb)
    refine ⟨?_, hl.frame fun b hb => ?_, hr.frame fun b hb => ?_⟩
    · exact update_self ha _
    · exact update_ne _ _ (hnot b (mem_append_left _ hb))
    · exact update_ne _ _ (hnot b (mem_append_right _ hb))

theorem addrs_of_ptr (ha : t.ptr = some a) : a ∈ t.addrs := by
  cases t with
  | nil => cases ha
  | node l b x r =>
    cases ha
    simp [addrs]

theorem Rep.parent_of_ptr (hrep : t.Rep h p) (ha : t.ptr = some a) :
    ∃ n, h.cells a = some n ∧ n.parent = p := by
  cases t with
  | nil => cases ha
  | node l b x r =>
    cases ha
    exact ⟨_, hrep.1, rfl⟩

theorem Rep.cell (hrep : t.Rep h p) (ha : a ∈ t.addrs) : ∃ n, h.cells a = some n := by
  induction t generalizing p with
  | nil => cases ha
  | node l b x r ihl ihr =>
    obtain ⟨hb, hl, hr⟩ := hrep
    rcases mem_append.mp ha with hal | har
    · exact ihl hl hal
    · rcases mem_cons.mp har with rfl | har
      · exact ⟨_, hb⟩
      · exact ihr hr har

theorem Rep.cell_of_places {φ : α → D} {y : D} (hrep : t.Rep h p) (ha : (a, y) ∈ t.places φ) :
    ∃ n, h.cells a = some n ∧ φ n.val = y := by
  induction t generalizing p with
  | nil => cases ha
  | node l b x r ihl ihr =>
    obtain ⟨hb, hl, hr⟩ := hrep
    rcases mem_append.mp ha with hal | har
    · exact ihl hl hal
    · rcases mem_cons.mp har with hab | har
      · obtain ⟨rfl, rfl⟩ := Prod.mk.inj hab
        exact ⟨_, hb, rfl⟩
      · exact ihr hr har

theorem Rep.parent_of_child (hrep : t.Rep h p) {n : Node α} {b : Nat} (ha : a ∈ t.addrs)
    (hn : h.cells a = some n) (hb : n.child d = some b) :
    ∃ m, h.cells b = some m ∧ m.parent = some a := by
  induction t generalizing p with
  | nil => cases ha
  | node l c x r ihl ihr =>
    obtain ⟨hc, hl, hr⟩ := hrep
    rcases mem_append.mp ha with ha | ha
    · exact ihl hl ha
    · rcases mem_cons.mp ha with rfl | ha
      · obtain rfl := Option.some.inj (hc.symm.trans hn)
        cases d with
        | left => exact hl.parent_of_ptr hb
        | right => exact hr.parent_of_ptr hb
      · exact ihr hr ha

theorem Rep.child_of_parent (hrep : t.Rep h p) {n : Node α} {b : Nat} (ha : a ∈ t.addrs)
    (hn : h.cells a = some n) (hb : n.parent = some b) :
    (t.ptr = some a ∧ p = some b) ∨ ∃ m e, h.cells b = some m ∧ m.child e = some a := by
  induction t generalizing p with
  | nil => cases ha
  | node l c x r ihl ihr =>
    obtain ⟨hc, hl, hr⟩ := hrep
    rcases mem_append.mp ha with ha | ha
    · rcases ihl hl ha with ⟨hptr, hcb⟩ | hchild
      · exact Or.inr ⟨⟨l.ptr, r.ptr, p, x⟩, .left, Option.some.inj hcb ▸ hc, hptr⟩
      · exact Or.inr hchild
    · rcases mem_cons.mp ha with rfl | ha
      · obtain rfl := Option.some.inj (hc.symm.trans hn)
        exact Or.inl ⟨rfl, hb⟩
      · rcases ihr hr ha with ⟨hptr, hcb⟩ | hchild
        · exact Or.inr ⟨⟨l.ptr, r.ptr, p, x⟩, .right, Option.some.inj hcb ▸ hc, hptr⟩
        · exact Or.inr hchild

end BinTree

/-! ## Paths to the root -/

/-- A node on a path, the side the path goes down on, and the other subtree. -/
structure Frame (α : Type) where
  side : Side
  addr : Nat
  val : α
  sib : BinTree α

def Frame.plug {α : Type} (f : Frame α) (t : BinTree α) : BinTree α := .mk f.side t f.addr f.val f.sib

/-- A path, from the node above the focus up to the root. -/
abbrev Path (α : Type) := List (Frame α)

namespace Path

variable {α : Type}

/-- The whole tree, with `t` in the focus. -/
def plug : Path α → BinTree α → BinTree α
  | [], t => t
  | f :: fs, t => plug fs (f.plug t)

/-- What is to the left of the focus. -/
def before : Path α → List α
  | [] => []
  | f :: fs =>
      match f.side with
      | .left => before fs
      | .right => before fs ++ (f.sib.inorder ++ [f.val])

/-- What is to the right of the focus. -/
def after : Path α → List α
  | [] => []
  | f :: fs =>
      match f.side with
      | .left => f.val :: f.sib.inorder ++ after fs
      | .right => after fs

def ptr : Path α → Ptr
  | [] => none
  | f :: _ => some f.addr

/-- The root pointer, if `p` points to the focus. -/
def root : Path α → Ptr → Ptr
  | [], p => p
  | f :: fs, _ => root fs (some f.addr)

def addrs : Path α → List Nat
  | [] => []
  | f :: fs => f.addr :: (f.sib.addrs ++ addrs fs)

/-- The heap holds the nodes of the path, and the last one points to `hole`. -/
def Rep (h : Heap (Node α)) : Path α → Ptr → Prop
  | [], _ => True
  | f :: fs, hole =>
      h.cells f.addr = some (Node.of f.side hole f.sib.ptr (ptr fs) f.val) ∧
        f.sib.Rep h (some f.addr) ∧ Rep h fs (some f.addr)

theorem plug_append (fs gs : Path α) (t : BinTree α) : plug (fs ++ gs) t = plug gs (plug fs t) := by
  induction fs generalizing t with
  | nil => rfl
  | cons f fs ih => exact ih _

theorem inorder_plug (fs : Path α) (t : BinTree α) :
    (plug fs t).inorder = before fs ++ t.inorder ++ after fs := by
  induction fs generalizing t with
  | nil => simp [plug, before, after]
  | cons f fs ih =>
    rw [plug, ih, before, after, Frame.plug]
    cases f.side <;> simp [BinTree.mk, BinTree.inorder]

variable {φ : α → D}

theorem places_plug_congr (fs : Path α) {t t' : BinTree α}
    (h : t.places φ = t'.places φ) : (plug fs t).places φ = (plug fs t').places φ := by
  induction fs generalizing t t' with
  | nil => exact h
  | cons f fs ih => exact ih (BinTree.places_mk_congr h rfl rfl)

/-- The nodes on one side of the focus, from the focus outwards. -/
def beyond {D : Type} (φ : α → D) (d : Side) : Path α → List (Nat × D)
  | [] => []
  | f :: fs =>
      if f.side = d then beyond φ d fs
      else (f.addr, φ f.val) :: (d.along (f.sib.places φ) ++ beyond φ d fs)

theorem along_places_plug (d : Side) (fs : Path α) (t : BinTree α) :
    d.along ((plug fs t).places φ) =
      (beyond φ d.other fs).reverse ++ d.along (t.places φ) ++ beyond φ d fs := by
  induction fs generalizing t with
  | nil => simp [plug, beyond]
  | cons f fs ih =>
    obtain ⟨e, a, x, sib⟩ := f
    rw [plug, ih, Frame.plug, beyond, beyond]
    rcases Side.eq_or_eq_other d e with rfl | rfl
    · rw [BinTree.along_places_mk, if_neg (Side.other_ne e).symm, if_pos rfl, Side.along_other]
      simp
    · rw [BinTree.mk_other, BinTree.along_places_mk, if_pos rfl, if_neg (Side.other_ne d)]
      simp

theorem map_snd_beyond_left (fs : Path α) :
    (beyond φ .left fs).reverse.map Prod.snd = (before fs).map φ := by
  induction fs with
  | nil => rfl
  | cons f fs ih =>
    cases hd : f.side with
    | left => simpa [beyond, before, hd] using ih
    | right =>
      have hsib := BinTree.map_snd_places (φ := φ) f.sib
      rw [map_reverse] at ih
      simp [beyond, before, hd, Side.along, ih, hsib, BinTree.items]

theorem map_snd_beyond_right (fs : Path α) :
    (beyond φ .right fs).map Prod.snd = (after fs).map φ := by
  induction fs with
  | nil => rfl
  | cons f fs ih =>
    cases hd : f.side with
    | right => simpa [beyond, after, hd] using ih
    | left =>
      have hsib := BinTree.map_snd_places (φ := φ) f.sib
      simp [beyond, after, hd, Side.along, ih, hsib, BinTree.items]

theorem length_le_height_plug (fs : Path α) (t : BinTree α) :
    fs.length + t.height ≤ (plug fs t).height := by
  induction fs generalizing t with
  | nil => simp [plug]
  | cons f fs ih =>
    have hplug := ih (f.plug t)
    rw [Frame.plug, BinTree.height_mk] at hplug
    rw [plug, length_cons]
    exact le_trans (by omega) hplug

variable {h h' : Heap (Node α)} {fs : Path α}

theorem Rep.frame (hagree : ∀ a ∈ addrs fs, h'.cells a = h.cells a) :
    ∀ {hole : Ptr}, Rep h fs hole → Rep h' fs hole := by
  induction fs with
  | nil => exact fun _ => trivial
  | cons f fs ih =>
    intro hole ⟨hf, hsib, hrest⟩
    refine ⟨?_, hsib.frame fun b hb => hagree b ?_, ih (fun b hb => hagree b ?_) hrest⟩
    · rw [hagree f.addr mem_cons_self, hf]
    · exact mem_cons_of_mem _ (mem_append_left _ hb)
    · exact mem_cons_of_mem _ (mem_append_right _ hb)

theorem Rep.cell {hole : Ptr} {a : Nat} (hrep : Rep h fs hole) (ha : a ∈ addrs fs) :
    ∃ n, h.cells a = some n := by
  induction fs generalizing hole with
  | nil => cases ha
  | cons f fs ih =>
    obtain ⟨hf, hsib, hrest⟩ := hrep
    rcases mem_cons.mp ha with hf' | ha
    · exact ⟨_, hf' ▸ hf⟩
    · rcases mem_append.mp ha with ha | ha
      · exact hsib.cell ha
      · exact ih hrest ha

end Path

theorem Path.exists_plug {α : Type} {t : BinTree α} {a : Nat} (ha : a ∈ t.addrs) (d : Side) :
    ∃ fs near x far, Path.plug fs (.mk d near a x far) = t := by
  have hnode : ∃ fs l x r, Path.plug fs (.node l a x r) = t := by
    induction t with
    | nil => cases ha
    | node l b y r ihl ihr =>
      rcases mem_append.mp ha with ha | ha
      · obtain ⟨fs, l', x, r', rfl⟩ := ihl ha
        exact ⟨fs ++ [⟨.left, b, y, r⟩], l', x, r', by
          simp [Path.plug_append, Path.plug, Frame.plug, BinTree.mk]⟩
      · rcases mem_cons.mp ha with rfl | ha
        · exact ⟨[], l, y, r, rfl⟩
        · obtain ⟨fs, l', x, r', rfl⟩ := ihr ha
          exact ⟨fs ++ [⟨.right, b, y, l⟩], l', x, r', by
            simp [Path.plug_append, Path.plug, Frame.plug, BinTree.mk]⟩
  obtain ⟨fs, l, x, r, hplug⟩ := hnode
  cases d with
  | left => exact ⟨fs, l, x, r, hplug⟩
  | right => exact ⟨fs, r, x, l, hplug⟩

/-! ## Trees in the heap -/

section linked

variable {α : Type} {s : Heap (Node α) × Ptr} {fs : Path α} {f : Frame α} {t near far : BinTree α}
  {d : Side} {a : Nat} {x y : α}

/-- The heap and the root pointer hold the tree with `t` in the focus. -/
structure Linked (s : Heap (Node α) × Ptr) (fs : Path α) (t : BinTree α) : Prop where
  rep : t.Rep s.1 (Path.ptr fs)
  path : Path.Rep s.1 fs t.ptr
  nodup : (t.addrs ++ Path.addrs fs).Nodup
  root : s.2 = Path.root fs t.ptr

theorem perm_plug (f : Frame α) (fs : Path α) (t : BinTree α) :
    ((f.plug t).addrs ++ Path.addrs fs).Perm (t.addrs ++ Path.addrs (f :: fs)) := by
  have hmk : (f.plug t).addrs.Perm (f.addr :: (t.addrs ++ f.sib.addrs)) := BinTree.addrs_mk
  refine (hmk.append_right (Path.addrs fs)).trans ?_
  rw [cons_append, append_assoc]
  exact perm_middle.symm

theorem linked_cons : Linked s (f :: fs) t ↔ Linked s fs (f.plug t) := by
  have hnodup := (perm_plug f fs t).nodup_iff
  have hptr : (f.plug t).ptr = some f.addr := BinTree.ptr_mk
  constructor
  · intro ⟨hrep, ⟨hf, hsib, hpath⟩, hnd, hroot⟩
    exact ⟨BinTree.rep_mk.mpr ⟨hf, hrep, hsib⟩, hptr.symm ▸ hpath, hnodup.mpr hnd, hptr.symm ▸ hroot⟩
  · intro ⟨hrep, hpath, hnd, hroot⟩
    obtain ⟨hf, ht, hsib⟩ := BinTree.rep_mk.mp hrep
    refine ⟨ht, ⟨hf, hsib, hptr ▸ hpath⟩, hnodup.mp hnd, hroot.trans ?_⟩
    rw [hptr]
    rfl

theorem linked_plug : Linked s fs t ↔ Linked s [] (Path.plug fs t) := by
  induction fs generalizing t with
  | nil => exact Iff.rfl
  | cons f fs ih => exact linked_cons.trans ih

theorem linked_near : Linked s fs (.mk d near a x far) ↔ Linked s (⟨d, a, x, far⟩ :: fs) near := by
  rw [linked_cons, Frame.plug]

theorem linked_far :
    Linked s fs (.mk d near a x far) ↔ Linked s (⟨d.other, a, x, near⟩ :: fs) far := by
  rw [linked_cons, Frame.plug, BinTree.mk_other]

theorem nodup_mk {rest : List Nat} : ((BinTree.mk d near a x far).addrs ++ rest).Nodup ↔
    (a :: (near.addrs ++ (far.addrs ++ rest))).Nodup := by
  rw [((BinTree.addrs_mk (d := d) (x := x)).append_right rest).nodup_iff, cons_append, append_assoc]

theorem linked_first (h : Heap (Node α)) (x : α) :
    Linked (h.alloc ⟨none, none, none, x⟩, some h.next) [] (.node .nil h.next x .nil) :=
  ⟨⟨alloc_self _ _, trivial, trivial⟩, trivial, nodup_singleton _, rfl⟩

/-- The parent pointers are the inverse of the child pointers. -/
structure ParentsOk (s : Heap (Node α) × Ptr) (t : BinTree α) : Prop where
  root : ∀ a, s.2 = some a → ∃ n, s.1.cells a = some n ∧ n.parent = none
  child : ∀ a ∈ t.addrs, ∀ n, s.1.cells a = some n → ∀ e b, n.child e = some b →
    ∃ m, s.1.cells b = some m ∧ m.parent = some a
  parent : ∀ a ∈ t.addrs, ∀ n, s.1.cells a = some n → ∀ b, n.parent = some b →
    ∃ m e, s.1.cells b = some m ∧ m.child e = some a

namespace Linked

theorem parentsOk (h : Linked s [] t) : ParentsOk s t where
  root _ ha := h.rep.parent_of_ptr (h.root.symm.trans ha)
  child _ ha _ hn _ _ hb := h.rep.parent_of_child ha hn hb
  parent _ ha _ hn _ hb := (h.rep.child_of_parent ha hn hb).resolve_left fun hroot =>
    nomatch hroot.2

theorem cell (h : Linked s fs (.mk d near a x far)) :
    s.1.cells a = some (Node.of d near.ptr far.ptr (Path.ptr fs) x) :=
  (BinTree.rep_mk.mp h.rep).1

theorem mapVal (h : Linked s fs (.mk d near a x far)) (φ : α → α) :
    Linked (s.1.update a (Node.mapVal φ), s.2) fs (.mk d near a (φ x) far) := by
  obtain ⟨hcell, hnear, hfar⟩ := BinTree.rep_mk.mp h.rep
  have hnd := nodup_mk.mp h.nodup
  have hnot : ∀ b ∈ near.addrs ++ (far.addrs ++ Path.addrs fs), b ≠ a := fun b hb hba =>
    (nodup_cons.mp hnd).1 (hba ▸ hb)
  refine ⟨BinTree.rep_mk.mpr ⟨?_, hnear.frame fun b hb => ?_, hfar.frame fun b hb => ?_⟩, ?_,
    nodup_mk.mpr hnd, BinTree.ptr_mk ▸ BinTree.ptr_mk ▸ h.root⟩
  · rw [update_self hcell, Node.mapVal_of]
  · exact update_ne _ _ (hnot b (mem_append_left _ hb))
  · exact update_ne _ _ (hnot b (mem_append_right _ (mem_append_left _ hb)))
  · rw [BinTree.ptr_mk]
    refine Path.Rep.frame (fun b hb => ?_) (BinTree.ptr_mk ▸ h.path)
    exact update_ne _ _ (hnot b (mem_append_right _ (mem_append_right _ hb)))

section wp

open HeapM Exec

variable {A B C : BinTree α} {p g : Nat} {e : Side} {ψ : α → α}
  {Q : Unit → Heap (Node α) × Ptr → Prop} {E : Heap (Node α) × Ptr → Prop}

theorem wp_mapVal (h : Linked s fs (.mk d near a x far))
    (hQ : ∀ s', Linked s' fs (.mk d near a (ψ x) far) → Q () s') :
    wp (store (some a) (Node.mapVal ψ)) Q E s :=
  (wp_store h.cell _ _).mpr (hQ _ (h.mapVal ψ))

theorem wp_mapVal_near (h : Linked s fs (.mk d (.mk e A p x B) g y C))
    (hQ : ∀ s', Linked s' fs (.mk d (.mk e A p (ψ x) B) g y C) → Q () s') :
    wp (store (some p) (Node.mapVal ψ)) Q E s :=
  (linked_near.mp h).wp_mapVal fun s' h' => hQ s' (linked_near.mpr h')

theorem wp_mapVal_far (h : Linked s fs (.mk d C g y (.mk e A p x B)))
    (hQ : ∀ s', Linked s' fs (.mk d C g y (.mk e A p (ψ x) B)) → Q () s') :
    wp (store (some p) (Node.mapVal ψ)) Q E s :=
  (linked_far.mp h).wp_mapVal fun s' h' => hQ s' (linked_far.mpr h')

end wp

theorem lt_next (h : Linked s fs t) (ha : a ∈ t.addrs ++ Path.addrs fs) : a < s.1.next := by
  rcases List.mem_append.mp ha with ha | ha
  · obtain ⟨n, hn⟩ := h.rep.cell ha
    exact Heap.lt_next hn
  · obtain ⟨n, hn⟩ := h.path.cell ha
    exact Heap.lt_next hn

theorem nodup_addrs (h : Linked s [] t) : t.addrs.Nodup := by
  simpa [Path.addrs] using h.nodup

theorem length_le_next (h : Linked s [] t) : t.inorder.length ≤ s.1.next := by
  have hsub : t.addrs ⊆ range s.1.next := fun a ha =>
    mem_range.mpr (h.lt_next (mem_append_left _ ha))
  have hlength := (h.nodup_addrs.subperm hsub).length_le
  rwa [length_range, ← BinTree.map_fst_places (φ := id), length_map,
    BinTree.length_places] at hlength

theorem attach (h : Linked s (f :: fs) .nil) (x : α) :
    Linked (((s.1.alloc ⟨none, none, none, x⟩).update f.addr
        (Node.setChild f.side (some s.1.next))).update s.1.next (Node.setParent (some f.addr)), s.2)
      (f :: fs) (.node .nil s.1.next x .nil) := by
  have hlt : ∀ {b}, b ∈ Path.addrs (f :: fs) → b < s.1.next := fun hb =>
    h.lt_next (mem_append_right _ hb)
  have hf := hlt mem_cons_self
  have hnd : (Path.addrs (f :: fs)).Nodup := (nodup_append.mp h.nodup).2.1
  obtain ⟨hcell, hsib, hrest⟩ := h.path
  -- the other nodes are neither the new node nor the one above it
  have hkeep : ∀ b ∈ f.sib.addrs ++ Path.addrs fs,
      (((s.1.alloc ⟨none, none, none, x⟩).update f.addr
        (Node.setChild f.side (some s.1.next))).update s.1.next
          (Node.setParent (some f.addr))).cells b = s.1.cells b := by
    intro b hb
    have hbf : b ≠ f.addr := fun hbf => (nodup_cons.mp hnd).1 (hbf ▸ hb)
    have hbn : b ≠ s.1.next := (hlt (mem_cons_of_mem _ hb)).ne
    rw [update_ne _ _ hbn, update_ne _ _ hbf, alloc_ne _ _ hbn]
  have hfn : f.addr ≠ s.1.next := hf.ne
  refine ⟨⟨?_, trivial, trivial⟩, ⟨?_, hsib.frame fun b hb => ?_, hrest.frame fun b hb => ?_⟩, ?_,
    h.root⟩
  · have hnew := alloc_self s.1 (⟨none, none, none, x⟩ : Node α)
    rw [← update_ne _ (Node.setChild f.side (some s.1.next)) hfn.symm] at hnew
    exact update_self hnew _
  · rw [update_ne _ _ hfn, update_self ((alloc_ne _ _ hfn).trans hcell), Node.setChild_of]
    rfl
  · exact hkeep b (mem_append_left _ hb)
  · exact hkeep b (mem_append_right _ hb)
  · exact nodup_cons.mpr ⟨fun hn => (hlt hn).ne rfl, hnd⟩

end Linked

end linked

end CallLesson.LinkedTree
