import CallLesson.Framework.Cyclic

/-! # `zhc::list`

    Model of `List.hpp`: a circular doubly linked list with a sentinel, `_head`, and the
    number of its nodes, `_size`. A program has any number of lists, which it names; the
    nodes of all of them are in one heap. Two member functions work with a list of their
    own, which they destroy when they return: the copy constructor with `tmp`, and
    `operator=` with its argument. -/

namespace CallLesson.Algorithm.ZhcList

open Chain (addrs)
open Cyclic HeapM Exec Node

/-! ## Model -/

structure ListObj where
  head : Ptr
  size : Nat
  deriving DecidableEq

abbrev ListM (I T : Type) := HeapM (Node T) (Dict (ObjName I) ListObj)

inductive Call (I T : Type) where
  | construct (i : I)
  | copy (i j : I)
  | assign (i j : I)
  | swap (i j : I)
  | destroy (i : I)
  | clear (i : I)
  | pushBack (i : I) (x : T)
  | pushFront (i : I) (x : T)
  | popBack (i : I)
  | popFront (i : I)
  | insert (i : I) (n : Nat) (x : T)
  | erase (i : I) (n : Nat)
  deriving DecidableEq

section model

variable {I T : Type} [DecidableEq I]

def fetch (this : ObjName I) : ListM I T ListObj := do
  match (← getObj) this with
  | none => throw (.fault .badAccess)
  | some l => pure l

def put (this : ObjName I) (l : ListObj) : ListM I T Unit := do
  setObj ((← getObj).assign this l)

def begin (this : ObjName I) : ListM I T Ptr := do
  let n ← load (← fetch this).head
  pure n.next

def end_ (this : ObjName I) : ListM I T Ptr := do
  pure (← fetch this).head

def emptyInitialize [Inhabited T] (this : ObjName I) : ListM I T Unit := do
  let head ← new ⟨none, none, default⟩
  store head (setNext head)
  store head (setPrev head)
  put this ⟨head, 0⟩

def insert (this : ObjName I) (pos : Ptr) (x : T) : ListM I T Ptr := do
  let newnode ← new ⟨none, none, x⟩
  let cur ← load pos
  store cur.prev (setNext newnode)
  store newnode (setPrev cur.prev)
  store newnode (setNext pos)
  store pos (setPrev newnode)
  let l ← fetch this
  put this { l with size := l.size + 1 }
  pure newnode

def erase (this : ObjName I) (pos : Ptr) : ListM I T Ptr := do
  if pos = (← end_ this) then throw (.fault .assertFailed)
  else
    let n ← load pos
    store n.prev (setNext n.next)
    store n.next (setPrev n.prev)
    delete pos
    let l ← fetch this
    put this { l with size := l.size - 1 }
    pure n.next

def pushBack (this : ObjName I) (x : T) : ListM I T Unit := do
  let _ ← insert this (← end_ this) x

def pushFront (this : ObjName I) (x : T) : ListM I T Unit := do
  let _ ← insert this (← begin this) x

def popFront (this : ObjName I) : ListM I T Unit := do
  let _ ← erase this (← begin this)

def popBack (this : ObjName I) : ListM I T Unit := do
  let n ← load (← end_ this)
  let _ ← erase this n.prev

def clearLoop (this : ObjName I) : Nat → Ptr → ListM I T Unit
  | 0, _ => throw .running
  | fuel + 1, it => do
      if it = (← end_ this) then pure ()
      else
        let next ← erase this it
        clearLoop this fuel next

def clear (fuel : Nat) (this : ObjName I) : ListM I T Unit := do
  clearLoop this fuel (← begin this)

def destroy (fuel : Nat) (this : ObjName I) : ListM I T Unit := do
  clear fuel this
  delete (← fetch this).head
  setObj ((← getObj).erase this)

def fill (this : ObjName I) (last : Ptr) : Nat → Ptr → ListM I T Unit
  | 0, _ => throw .running
  | fuel + 1, first => do
      if first = last then pure ()
      else
        let n ← load first
        pushBack this n.data
        let n ← load first
        fill this last fuel n.next

def swap (this lt : ObjName I) : ListM I T Unit := do
  let l ← fetch this
  let r ← fetch lt
  put this { l with head := r.head }
  put lt { (← fetch lt) with head := l.head }
  put this { (← fetch this) with size := r.size }
  put lt { (← fetch lt) with size := l.size }

variable [Inhabited T]

def ofRange (fuel : Nat) (this : ObjName I) (first last : Ptr) : ListM I T Unit := do
  emptyInitialize this
  fill this last fuel first

def copy (fuel : Nat) (this lt : ObjName I) : ListM I T Unit := do
  emptyInitialize this
  let first ← begin lt
  let last ← end_ lt
  ofRange fuel .tmp first last
  swap this .tmp
  destroy fuel .tmp

def assign (fuel : Nat) (this lt : ObjName I) : ListM I T Unit := do
  copy fuel .arg lt
  swap this .arg
  destroy fuel .arg

def advance : Nat → Ptr → ListM I T Ptr
  | 0, it => pure it
  | n + 1, it => do
      let cur ← load it
      advance n cur.next

def exec (fuel : Nat) : Call I T → ListM I T Unit
  | .construct i => emptyInitialize (.var i)
  | .copy i j => copy fuel (.var i) (.var j)
  | .assign i j => assign fuel (.var i) (.var j)
  | .swap i j => swap (.var i) (.var j)
  | .destroy i => destroy fuel (.var i)
  | .clear i => clear fuel (.var i)
  | .pushBack i x => pushBack (.var i) x
  | .pushFront i x => pushFront (.var i) x
  | .popBack i => popBack (.var i)
  | .popFront i => popFront (.var i)
  | .insert i n x => do
      let pos ← advance n (← begin (.var i))
      let _ ← insert (.var i) pos x
  | .erase i n => do
      let pos ← advance n (← begin (.var i))
      let _ ← erase (.var i) pos

end model

/-! ## Member functions on rings -/

open List Option Function Dict ObjName

section rings

variable {I T : Type} {s : Heap (Node T) × Dict (ObjName I) ListObj}
  {R : ObjName I → List (Nat × T)} {o : ObjName I} {e d : Nat × T} {l r : List (Nat × T)} {x : T}
  {fuel : Nat} {E : Heap (Node T) × Dict (ObjName I) ListObj → Prop}

def object : List (Nat × T) → Option ListObj
  | [] => none
  | e :: nodes => some ⟨some e.1, nodes.length⟩

structure ListsOk (s : Heap (Node T) × Dict (ObjName I) ListObj) (R : ObjName I → List (Nat × T)) :
    Prop where
  rings : Rings s.1 R
  objects : ∀ o, s.2 o = object (R o)

theorem listsOk_empty :
    ListsOk (Heap.empty, Dict.empty) (fun _ : ObjName I => ([] : List (Nat × T))) where
  rings := Rings.empty
  objects _ := rfl

theorem wp_fetch_of_some {l : ListObj} (ho : s.2 o = some l)
    (Q : ListObj → Heap (Node T) × Dict (ObjName I) ListObj → Prop) :
    wp (fetch o) Q E s ↔ Q l s := by
  simp [fetch, ho]

namespace ListsOk

variable (h : ListsOk s R)

include h

theorem wp_fetch (ho : R o = e :: l) (Q : ListObj → Heap (Node T) × Dict (ObjName I) ListObj → Prop) :
    wp (fetch o) Q E s ↔ Q ⟨some e.1, l.length⟩ s :=
  wp_fetch_of_some (by rw [h.objects, ho, object]) Q

theorem wp_end (ho : R o = e :: l) (Q : Ptr → Heap (Node T) × Dict (ObjName I) ListObj → Prop) :
    wp (end_ o) Q E s ↔ Q (some e.1) s := by
  rw [end_, wp_bind, h.wp_fetch ho, wp_pure]

theorem wp_begin (ho : R o = e :: l) (Q : Ptr → Heap (Node T) × Dict (ObjName I) ListObj → Prop) :
    wp (begin o) Q E s ↔ Q (addrs (l ++ [e])).head? s := by
  obtain ⟨b, hb⟩ : ∃ b, (addrs (l ++ [e])).head? = some b :=
    isSome_iff_exists.mp (by simp)
  have hadj : Adj s.1 e.1 b := h.rings.adj (l := [e]) ho rfl hb
  obtain ⟨n, hn, hnext⟩ := Heap.exists_of_field hadj.1
  rw [begin, wp_bind, h.wp_fetch ho, wp_bind, wp_load hn, wp_pure, hnext, hb]

theorem node (ho : R o = e :: (l ++ d :: r)) :
    ∃ n, s.1.cells d.1 = some n ∧ n.next = (addrs (r ++ [e])).head? ∧ n.data = d.2 := by
  obtain ⟨b, hb⟩ : ∃ b, (addrs (r ++ [e])).head? = some b :=
    isSome_iff_exists.mp (by simp)
  have hsplit : R o = (e :: l ++ [d]) ++ r := by simp [ho]
  have hadj : Adj s.1 d.1 b := by
    refine h.rings.adj hsplit ?_ ?_
    · rw [Chain.addrs_append]
      exact getLast?_concat
    · rw [← hb]
      cases r <;> rfl
  obtain ⟨n, hn, hnext⟩ := Heap.exists_of_field hadj.1
  have hdata := h.rings.data o d (by simp [ho])
  rw [Heap.field_of_some hn, some_inj] at hdata
  exact ⟨n, hn, hnext.trans hb.symm, hdata⟩

theorem wp_advance {m : List (Nat × T)} (ho : R o = e :: (l ++ (m ++ r)))
    (Q : Ptr → Heap (Node T) × Dict (ObjName I) ListObj → Prop) :
    wp (advance m.length (addrs (m ++ r ++ [e])).head?) Q E s ↔ Q (addrs (r ++ [e])).head? s := by
  induction m generalizing l with
  | nil =>
    rw [length_nil, advance, wp_pure]
    rfl
  | cons d m ih =>
    obtain ⟨n, hn, hnext, _⟩ := h.node (r := m ++ r) ho
    have hfirst : (addrs (d :: m ++ r ++ [e])).head? = some d.1 := rfl
    have hrest : R o = e :: (l ++ [d] ++ (m ++ r)) := by simp [ho]
    rw [hfirst, length_cons, advance, wp_bind, wp_load hn, hnext, ih hrest]

theorem ne_head (ho : R o = e :: l) (hd : d ∈ l) : d.1 ≠ e.1 := by
  have hnodup := h.rings.nodup o
  rw [ho, Chain.addrs_cons, nodup_cons] at hnodup
  intro hde
  exact hnodup.1 (hde ▸ mem_map_of_mem hd)

end ListsOk

variable [DecidableEq I]

@[simp] theorem wp_put (l : ListObj) (Q : Unit → Heap (Node T) × Dict (ObjName I) ListObj → Prop) :
    wp (put o l) Q E s ↔ Q () (s.1, s.2.assign o l) := by
  simp [put]

variable {Q : Unit → Heap (Node T) × Dict (ObjName I) ListObj → Prop}

namespace ListsOk

variable (h : ListsOk s R)

include h

theorem assign {h' : Heap (Node T)} (hrings : Rings h' (Function.update R o (e :: l))) :
    ListsOk (h', s.2.assign o ⟨some e.1, l.length⟩) (Function.update R o (e :: l)) where
  rings := hrings
  objects o' := by
    by_cases ho : o' = o
    · subst ho
      rw [update_self]
      exact assign_self _ _ _
    · rw [update_of_ne ho]
      exact (assign_ne _ _ ho).trans (h.objects o')

theorem wp_emptyInitialize [Inhabited T] (ho : R o = [])
    (hQ : ∀ s' a, ListsOk s' (Function.update R o [(a, default)]) → Q () s') :
    wp (emptyInitialize o) Q E s := by
  rw [emptyInitialize, wp_bind, wp_new, wp_bind, wp_store_isSome (by simp), wp_bind,
    wp_store_isSome (by simp), wp_put]
  exact hQ _ _ (h.assign (h.rings.add ho default))

theorem wp_insert (ho : R o = e :: (l ++ r))
    {Q : Ptr → Heap (Node T) × Dict (ObjName I) ListObj → Prop}
    (hQ : ∀ s' a, ListsOk s' (Function.update R o (e :: (l ++ (a, x) :: r))) → Q (some a) s') :
    wp (insert o (addrs (r ++ [e])).head? x) Q E s := by
  obtain ⟨cur, hcur⟩ : ∃ b, (addrs (r ++ [e])).head? = some b :=
    isSome_iff_exists.mp (by simp)
  obtain ⟨p, hp⟩ : ∃ b, (addrs (e :: l)).getLast? = some b :=
    isSome_iff_exists.mp (by simp)
  have hfirst : (addrs (r ++ e :: l)).head? = some cur := by
    rw [← hcur]
    cases r <;> rfl
  have hadj := h.rings.adj (l := e :: l) ho hp hfirst
  obtain ⟨n, hn, hprev⟩ := Heap.exists_of_field hadj.2
  obtain ⟨m, hm, _⟩ := Heap.exists_of_field hadj.1
  have hfetch : s.2 o = some ⟨some e.1, (l ++ r).length⟩ := by rw [h.objects, ho, object]
  rw [hcur, insert, wp_bind, wp_new, wp_bind, wp_load (Heap.alloc_of_some hn _), hprev, wp_bind,
    wp_store_isSome (by simp [hm]), wp_bind, wp_store_isSome (by simp), wp_bind,
    wp_store_isSome (by simp), wp_bind, wp_store_isSome (by simp [hn]), wp_bind,
    wp_fetch_of_some (l := ⟨some e.1, (l ++ r).length⟩) (by exact hfetch), wp_bind, wp_put, wp_pure]
  have hrings := h.rings.link (l := e :: l) ho hp hfirst x
  have hlength : (l ++ r).length + 1 = (l ++ (s.1.next, x) :: r).length := by
    simp only [length_append, length_cons]
    omega
  rw [hlength]
  exact hQ _ _ (h.assign hrings)

theorem wp_erase (ho : R o = e :: (l ++ d :: r))
    {Q : Ptr → Heap (Node T) × Dict (ObjName I) ListObj → Prop}
    (hQ : ∀ s', ListsOk s' (Function.update R o (e :: (l ++ r))) →
      Q (addrs (r ++ [e])).head? s') : wp (erase o (some d.1)) Q E s := by
  obtain ⟨n, hn⟩ : ∃ b, (addrs (r ++ [e])).head? = some b :=
    isSome_iff_exists.mp (by simp)
  obtain ⟨p, hp⟩ : ∃ b, (addrs (e :: l)).getLast? = some b :=
    isSome_iff_exists.mp (by simp)
  have hne : d.1 ≠ e.1 := h.ne_head ho (by simp)
  have hlast : (addrs (r ++ e :: l)).getLast? = some p := by
    rw [Chain.addrs_append, getLast?_append, hp]
    rfl
  have hfirst : (addrs (r ++ e :: l)).head? = some n := by
    rw [← hn]
    cases r <;> rfl
  have hpd : Adj s.1 p d.1 := h.rings.adj (l := e :: l) ho hp rfl
  obtain ⟨m, hm, hnext, _⟩ := h.node ho
  obtain ⟨m', hm', hprev⟩ := Heap.exists_of_field hpd.2
  obtain rfl : m = m' := some_inj.mp (hm.symm.trans hm')
  obtain ⟨mp, hmp, _⟩ := Heap.exists_of_field hpd.1
  have hmn : (s.1.cells n).isSome := by
    refine h.rings.isSome_of_mem (i := o) ?_
    have hmem := mem_of_head? hfirst
    simp only [ho, Chain.addrs_append, Chain.addrs_cons, mem_append, mem_cons] at hmem ⊢
    tauto
  have hfetch : s.2 o = some ⟨some e.1, (l ++ d :: r).length⟩ := by rw [h.objects, ho, object]
  rw [erase, wp_bind, h.wp_end ho, if_neg (by simpa using hne), wp_bind, wp_load hm, hnext, hn,
    hprev, wp_bind, wp_store_isSome (by simp [hmp]), wp_bind, wp_store_isSome (by simp [hmn]),
    wp_bind, wp_delete_isSome (by simp [hm]), wp_bind,
    wp_fetch_of_some (l := ⟨some e.1, (l ++ d :: r).length⟩) (by exact hfetch), wp_bind, wp_put,
    wp_pure]
  have hrings := h.rings.unlink (l := e :: l) ho hlast hfirst
  have hlength : (l ++ d :: r).length - 1 = (l ++ r).length := by
    simp only [length_append, length_cons]
    omega
  have hdone := hQ _ (h.assign hrings)
  rw [hn] at hdone
  rw [hlength]
  exact hdone

theorem wp_clearLoop (ho : R o = e :: l) (hfuel : l.length < fuel)
    (hQ : ∀ s', ListsOk s' (Function.update R o [e]) → Q () s') :
    wp (clearLoop o fuel (addrs (l ++ [e])).head?) Q E s := by
  -- by induction on the nodes that are left: each round erases the first of them
  induction l generalizing s R fuel with
  | nil =>
    obtain ⟨fuel, rfl⟩ : ∃ k, fuel = k + 1 := ⟨fuel - 1, by omega⟩
    rw [clearLoop, wp_bind, h.wp_end ho, if_pos (by rfl), wp_pure]
    refine hQ s ?_
    rwa [← ho, update_eq_self]
  | cons d l ih =>
    obtain ⟨fuel, rfl⟩ : ∃ k, fuel = k + 1 := ⟨fuel - 1, by omega⟩
    have hne : (addrs (d :: l ++ [e])).head? ≠ some e.1 := fun hde =>
      h.ne_head ho mem_cons_self (some_inj.mp hde)
    rw [clearLoop, wp_bind, h.wp_end ho, if_neg hne, wp_bind]
    refine h.wp_erase (l := []) ho fun s' h' => ?_
    refine ih h' (update_self _ _ _) (Nat.lt_of_succ_lt_succ hfuel) fun s'' h'' => ?_
    rw [update_idem] at h''
    exact hQ s'' h''

theorem wp_clear (ho : R o = e :: l) (hfuel : l.length < fuel)
    (hQ : ∀ s', ListsOk s' (Function.update R o [e]) → Q () s') : wp (clear fuel o) Q E s := by
  rw [clear, wp_bind, h.wp_begin ho]
  exact h.wp_clearLoop ho hfuel hQ

theorem wp_destroy (ho : R o = e :: l) (hfuel : l.length < fuel)
    (hQ : ∀ s', ListsOk s' (Function.update R o []) → Q () s') : wp (destroy fuel o) Q E s := by
  rw [destroy, wp_bind]
  refine h.wp_clear ho hfuel fun s' h' => ?_
  have ho' : update R o [e] o = [e] := update_self _ _ _
  have hsome := h'.rings.isSome_of_mem (i := o) (b := e.1) (by rw [ho']; exact mem_cons_self)
  rw [wp_bind, h'.wp_fetch ho', wp_bind, wp_delete_isSome hsome, wp_bind, wp_getObj, wp_setObj]
  have hrings := h'.rings.remove ho'
  rw [update_idem] at hrings
  refine hQ _ ⟨hrings, fun o' => ?_⟩
  by_cases ho' : o' = o
  · subst ho'
    rw [update_self]
    exact erase_self _ _
  · have hother := h'.objects o'
    rw [update_of_ne ho'] at hother ⊢
    exact (erase_ne _ ho').trans hother

theorem wp_pushBack (ho : R o = e :: l)
    (hQ : ∀ s' a, ListsOk s' (Function.update R o (e :: (l ++ [(a, x)]))) → Q () s') :
    wp (pushBack o x) Q E s := by
  rw [pushBack, wp_bind, h.wp_end ho, wp_bind]
  exact h.wp_insert (r := []) (by rw [ho, append_nil]) fun s' a h' =>
    (wp_pure _ _ _ _).mpr (hQ s' a h')

theorem wp_pushFront (ho : R o = e :: l)
    (hQ : ∀ s' a, ListsOk s' (Function.update R o (e :: (a, x) :: l)) → Q () s') :
    wp (pushFront o x) Q E s := by
  rw [pushFront, wp_bind, h.wp_begin ho, wp_bind]
  exact h.wp_insert (l := []) ho fun s' a h' =>
    (wp_pure _ _ _ _).mpr (hQ s' a h')

theorem wp_popFront (ho : R o = e :: d :: l)
    (hQ : ∀ s', ListsOk s' (Function.update R o (e :: l)) → Q () s') : wp (popFront o) Q E s := by
  rw [popFront, wp_bind, h.wp_begin ho, wp_bind]
  exact h.wp_erase (l := []) ho fun s' h' => (wp_pure _ _ _ _).mpr (hQ s' h')

theorem wp_popBack (ho : R o = e :: (l ++ [d]))
    (hQ : ∀ s', ListsOk s' (Function.update R o (e :: l)) → Q () s') : wp (popBack o) Q E s := by
  -- the node before the sentinel is the last one
  have hadj : Adj s.1 d.1 e.1 := by
    refine h.rings.adj (r := []) (ho.trans (append_nil _).symm) ?_ rfl
    rw [← cons_append, Chain.addrs_append]
    exact getLast?_concat
  obtain ⟨n, hn, hprev⟩ := Heap.exists_of_field hadj.2
  rw [popBack, wp_bind, h.wp_end ho, wp_bind, wp_load hn, hprev, wp_bind]
  refine h.wp_erase ho fun s' h' => ?_
  rw [append_nil] at h'
  exact (wp_pure _ _ _ _).mpr (hQ s' h')

theorem wp_fill {src : ObjName I} {nodes : List (Nat × T)} (hne : o ≠ src)
    (hsrc : R src = d :: (l ++ r)) (ho : R o = e :: nodes) (hfuel : r.length < fuel)
    (hQ : ∀ s' nodes', nodes'.map Prod.snd = nodes.map Prod.snd ++ r.map Prod.snd →
      ListsOk s' (Function.update R o (e :: nodes')) → Q () s') :
    wp (fill o (some d.1) fuel (addrs (r ++ [d])).head?) Q E s := by
  induction r generalizing s R l nodes fuel with
  | nil =>
    obtain ⟨fuel, rfl⟩ : ∃ k, fuel = k + 1 := ⟨fuel - 1, by omega⟩
    rw [fill, if_pos (by rfl), wp_pure]
    refine hQ s nodes (by simp) ?_
    rwa [← ho, update_eq_self]
  | cons c r ih =>
    obtain ⟨fuel, rfl⟩ : ∃ k, fuel = k + 1 := ⟨fuel - 1, by omega⟩
    have hcd : (addrs (c :: r ++ [d])).head? ≠ some d.1 := fun hcd =>
      h.ne_head hsrc (by simp) (some_inj.mp hcd)
    have hfirst : (addrs (c :: r ++ [d])).head? = some c.1 := rfl
    obtain ⟨n, hn, _, hdata⟩ := h.node hsrc
    rw [fill, if_neg hcd, hfirst, wp_bind, wp_load hn, hdata, wp_bind]
    refine h.wp_pushBack ho fun s' a h' => ?_
    -- the other list is as it was
    have hsrc' : update R o (e :: (nodes ++ [(a, c.2)])) src = d :: (l ++ c :: r) := by
      rw [update_of_ne hne.symm, hsrc]
    obtain ⟨n', hn', hnext', _⟩ := h'.node hsrc'
    rw [wp_bind, wp_load hn', hnext']
    refine ih h' (l := l ++ [c]) (by rw [hsrc']; simp) (update_self _ _ _)
      (Nat.lt_of_succ_lt_succ hfuel) fun s'' nodes' hnodes h'' => ?_
    rw [update_idem] at h''
    exact hQ s'' nodes' (by simp [hnodes]) h''

theorem wp_swap {o' : ObjName I} {l' : List (Nat × T)} {e' : Nat × T} (ho : R o = e :: l)
    (ho' : R o' = e' :: l') (hQ : ∀ s', ListsOk s' (fun k => R (Equiv.swap o o' k)) → Q () s') :
    wp (swap o o') Q E s := by
  have hfetch : s.2 o = some ⟨some e.1, l.length⟩ := by rw [h.objects, ho, object]
  have hfetch' : s.2 o' = some ⟨some e'.1, l'.length⟩ := by rw [h.objects, ho', object]
  by_cases heq : o = o'
  · -- a list that is swapped with itself
    subst heq
    obtain ⟨rfl, rfl⟩ : e = e' ∧ l = l' := by simpa [ho] using ho'
    rw [swap, wp_bind, wp_fetch_of_some hfetch, wp_bind, wp_fetch_of_some hfetch, wp_bind, wp_put,
      wp_bind, wp_fetch_of_some (assign_self _ _ _), wp_bind, wp_put,
      wp_bind, wp_fetch_of_some (assign_self _ _ _), wp_bind, wp_put,
      wp_bind, wp_fetch_of_some (assign_self _ _ _), wp_put]
    refine hQ _ ⟨h.rings.rename _, fun k => ?_⟩
    rw [Equiv.swap_self, Equiv.refl_apply]
    by_cases hk : k = o
    · subst hk
      rw [ho]
      exact assign_self _ _ _
    · simp [hk, h.objects]
  · have heq' : o' ≠ o := Ne.symm heq
    rw [swap, wp_bind, wp_fetch_of_some hfetch, wp_bind, wp_fetch_of_some hfetch', wp_bind, wp_put,
      wp_bind, wp_fetch_of_some ((assign_ne _ _ heq').trans hfetch'), wp_bind, wp_put,
      wp_bind, wp_fetch_of_some ((assign_ne _ _ heq).trans (assign_self _ _ _)), wp_bind,
      wp_put, wp_bind,
      wp_fetch_of_some ((assign_ne _ _ heq').trans (assign_self _ _ _)), wp_put]
    refine hQ _ ⟨h.rings.rename _, fun k => ?_⟩
    by_cases hk' : k = o'
    · subst hk'
      rw [Equiv.swap_apply_right, ho]
      exact assign_self _ _ _
    · by_cases hk : k = o
      · subst hk
        rw [Equiv.swap_apply_left, ho']
        simp [hk', object]
      · rw [Equiv.swap_apply_of_ne_of_ne hk hk']
        simp [hk, hk', h.objects]

theorem wp_ofRange [Inhabited T] {src : ObjName I} (hsrc : R src = d :: r) (ho : R o = [])
    (hfuel : r.length < fuel) (hQ : ∀ s' e nodes, nodes.map Prod.snd = r.map Prod.snd →
      ListsOk s' (Function.update R o (e :: nodes)) → Q () s') :
    wp (ofRange fuel o (addrs (r ++ [d])).head? (some d.1)) Q E s := by
  have hne : o ≠ src := by
    intro heq
    rw [heq, hsrc] at ho
    cases ho
  rw [ofRange, wp_bind]
  refine h.wp_emptyInitialize ho fun s' a h' => ?_
  refine h'.wp_fill (l := []) hne ((update_of_ne hne.symm _ _).trans hsrc)
    (update_self _ _ _) hfuel fun s'' nodes hnodes h'' => ?_
  rw [update_idem] at h''
  exact hQ s'' _ nodes hnodes h''

end ListsOk

end rings

/-! ## The sequences -/

section sequences

variable {I T : Type}

def contents : List (Nat × T) → Option (List T)
  | [] => none
  | _ :: nodes => some (nodes.map Prod.snd)

theorem exists_of_contents {ring : List (Nat × T)} {xs : List T} (h : contents ring = some xs) :
    ∃ e l, ring = e :: l ∧ l.map Prod.snd = xs ∧ l.length = xs.length := by
  cases ring with
  | nil => cases h
  | cons e l =>
    obtain rfl : l.map Prod.snd = xs := some_inj.mp h
    exact ⟨e, l, rfl, rfl, (length_map _).symm⟩

theorem eq_nil_of_contents {ring : List (Nat × T)} (h : contents ring = none) : ring = [] := by
  cases ring with
  | nil => rfl
  | cons e l => cases h

def Holds (s : Heap (Node T) × Dict (ObjName I) ListObj) (m : Dict (ObjName I) (List T)) : Prop :=
  ∃ R, ListsOk s R ∧ ∀ o, contents (R o) = m o

variable [DecidableEq I]

def Call.onSeqs (m : Dict I (List T)) : Call I T → Option (Dict I (List T))
  | .construct i => if (m i).isNone then some (m.assign i []) else none
  | .copy i j => do
      let ys ← m j
      if (m i).isNone then some (m.assign i ys) else none
  | .assign i j => do
      let _ ← m i
      let ys ← m j
      some (m.assign i ys)
  | .swap i j => do
      let xs ← m i
      let ys ← m j
      some ((m.assign i ys).assign j xs)
  | .destroy i => do
      let _ ← m i
      some (m.erase i)
  | .clear i => do
      let _ ← m i
      some (m.assign i [])
  | .pushBack i x => do
      let xs ← m i
      some (m.assign i (xs ++ [x]))
  | .pushFront i x => do
      let xs ← m i
      some (m.assign i (x :: xs))
  | .popBack i => do
      let xs ← m i
      if xs.isEmpty then none else some (m.assign i xs.dropLast)
  | .popFront i => do
      let xs ← m i
      if xs.isEmpty then none else some (m.assign i xs.tail)
  | .insert i n x => do
      let xs ← m i
      if n ≤ xs.length then some (m.assign i (xs.insertIdx n x)) else none
  | .erase i n => do
      let xs ← m i
      if n < xs.length then some (m.assign i (xs.eraseIdx n)) else none

def allOnSeqs (m : Dict I (List T)) (cs : List (Call I T)) : Option (Dict I (List T)) :=
  cs.foldlM Call.onSeqs m

end sequences

/-! ## Member functions on sequences -/

section refinement

variable {I T : Type} [DecidableEq I] {s : Heap (Node T) × Dict (ObjName I) ListObj}
  {m : Dict (ObjName I) (List T)} {o o' : ObjName I} {xs ys : List T} {x : T} {fuel : Nat}
  {E : Heap (Node T) × Dict (ObjName I) ListObj → Prop}
  {Q : Unit → Heap (Node T) × Dict (ObjName I) ListObj → Prop}

namespace Holds

theorem assign {R : ObjName I → List (Nat × T)} {s' : Heap (Node T) × Dict (ObjName I) ListObj}
    {ring : List (Nat × T)} (hm : ∀ o, contents (R o) = m o) (hxs : contents ring = some xs)
    (h : ListsOk s' (Function.update R o ring)) : Holds s' (m.assign o xs) := by
  refine ⟨_, h, fun k => ?_⟩
  by_cases hk : k = o
  · rw [hk, update_self, assign_self, hxs]
  · rw [update_of_ne hk, assign_ne _ _ hk, hm]

theorem wp_emptyInitialize [Inhabited T] (h : Holds s m) (ho : m o = none)
    (hQ : ∀ s', Holds s' (m.assign o []) → Q () s') : wp (emptyInitialize o) Q E s := by
  obtain ⟨R, h, hm⟩ := h
  exact h.wp_emptyInitialize (eq_nil_of_contents ((hm o).trans ho))
    fun s' a h' => hQ s' (assign hm rfl h')

section

variable (h : Holds s m) (ho : m o = some xs)

include h ho

theorem wp_clear (hfuel : xs.length < fuel) (hQ : ∀ s', Holds s' (m.assign o []) → Q () s') :
    wp (clear fuel o) Q E s := by
  obtain ⟨R, h, hm⟩ := h
  obtain ⟨e, l, hring, _, hlength⟩ := exists_of_contents ((hm o).trans ho)
  exact h.wp_clear hring (by omega) fun s' h' => hQ s' (assign hm rfl h')

theorem wp_destroy (hfuel : xs.length < fuel) (hQ : ∀ s', Holds s' (m.erase o) → Q () s') :
    wp (destroy fuel o) Q E s := by
  obtain ⟨R, h, hm⟩ := h
  obtain ⟨e, l, hring, _, hlength⟩ := exists_of_contents ((hm o).trans ho)
  refine h.wp_destroy hring (by omega) fun s' h' => hQ s' ⟨_, h', fun k => ?_⟩
  by_cases hk : k = o
  · rw [hk, update_self, erase_self]
    rfl
  · rw [update_of_ne hk, erase_ne _ hk, hm]

theorem wp_swap (ho' : m o' = some ys) (hQ : ∀ s', Holds s' (m.swap o o') → Q () s') :
    wp (swap o o') Q E s := by
  obtain ⟨R, h, hm⟩ := h
  obtain ⟨e, l, hring, _⟩ := exists_of_contents ((hm o).trans ho)
  obtain ⟨e', l', hring', _⟩ := exists_of_contents ((hm o').trans ho')
  exact h.wp_swap hring hring' fun s' h' => hQ s' ⟨_, h', fun k => hm _⟩

theorem wp_pushBack (hQ : ∀ s', Holds s' (m.assign o (xs ++ [x])) → Q () s') :
    wp (pushBack o x) Q E s := by
  obtain ⟨R, h, hm⟩ := h
  obtain ⟨e, l, hring, hxs, _⟩ := exists_of_contents ((hm o).trans ho)
  exact h.wp_pushBack hring fun s' a h' => hQ s' (assign hm (by simp [contents, hxs]) h')

theorem wp_pushFront (hQ : ∀ s', Holds s' (m.assign o (x :: xs)) → Q () s') :
    wp (pushFront o x) Q E s := by
  obtain ⟨R, h, hm⟩ := h
  obtain ⟨e, l, hring, hxs, _⟩ := exists_of_contents ((hm o).trans ho)
  exact h.wp_pushFront hring fun s' a h' => hQ s' (assign hm (by simp [contents, hxs]) h')

theorem wp_popFront (hne : xs ≠ []) (hQ : ∀ s', Holds s' (m.assign o xs.tail) → Q () s') :
    wp (popFront o) Q E s := by
  obtain ⟨R, h, hm⟩ := h
  obtain ⟨e, l, hring, hxs, _⟩ := exists_of_contents ((hm o).trans ho)
  cases l with
  | nil => exact absurd hxs.symm hne
  | cons d l =>
    exact h.wp_popFront hring fun s' h' => hQ s' (assign hm (by simp [contents, ← hxs]) h')

theorem wp_popBack (hne : xs ≠ []) (hQ : ∀ s', Holds s' (m.assign o xs.dropLast) → Q () s') :
    wp (popBack o) Q E s := by
  obtain ⟨R, h, hm⟩ := h
  obtain ⟨e, l, hring, hxs, _⟩ := exists_of_contents ((hm o).trans ho)
  rcases eq_nil_or_concat l with rfl | ⟨l, d, rfl⟩
  · exact absurd hxs.symm hne
  · rw [concat_eq_append] at hring hxs
    exact h.wp_popBack hring fun s' h' => hQ s' (assign hm (by simp [contents, ← hxs]) h')

end

theorem wp_copy [Inhabited T] (h : Holds s m) (ho : m o = none) (htmp : m .tmp = none)
    (hne : o ≠ .tmp) (ho' : m o' = some ys) (hfuel : ys.length < fuel)
    (hQ : ∀ s', Holds s' (m.assign o ys) → Q () s') : wp (copy fuel o o') Q E s := by
  have hsrc : o' ≠ o := by
    intro heq
    rw [heq, ho] at ho'
    cases ho'
  rw [copy, wp_bind]
  refine h.wp_emptyInitialize ho fun s1 hs1 => ?_
  obtain ⟨R, h1, hm⟩ := hs1
  obtain ⟨d, r, hring, hys, hlength⟩ := exists_of_contents
    ((hm o').trans ((assign_ne _ _ hsrc).trans ho'))
  have htmp1 := (assign_ne m ([] : List T) hne.symm).trans htmp
  rw [wp_bind, h1.wp_begin hring, wp_bind, h1.wp_end hring, wp_bind]
  refine h1.wp_ofRange hring (eq_nil_of_contents ((hm .tmp).trans htmp1)) (by omega)
    fun s2 e nodes hnodes h2 => ?_
  have h2 := assign hm (by rw [contents, hnodes, hys]) h2
  rw [wp_bind]
  refine h2.wp_swap ((assign_ne _ _ hne).trans (assign_self _ _ _))
    (assign_self _ _ _) fun s3 h3 => ?_
  -- `tmp` is now the empty list that was made first
  have hempty : ((m.assign o []).assign .tmp ys).swap o .tmp .tmp = some [] := by
    rw [swap_right, assign_ne _ _ hne, assign_self]
  refine h3.wp_destroy hempty (Nat.zero_lt_of_lt hfuel) fun s4 h4 => ?_
  rw [erase_swap htmp1 hne, assign_assign] at h4
  exact hQ s4 h4

theorem wp_assign [Inhabited T] (h : Holds s m) (ho : m o = some xs) (htmp : m .tmp = none)
    (harg : m .arg = none) (ho' : m o' = some ys) (hxs : xs.length < fuel)
    (hys : ys.length < fuel) (hQ : ∀ s', Holds s' (m.assign o ys) → Q () s') :
    wp (ZhcList.assign fuel o o') Q E s := by
  have hne : o ≠ .arg := by
    intro heq
    rw [heq, harg] at ho
    cases ho
  rw [ZhcList.assign, wp_bind]
  refine h.wp_copy harg htmp nofun ho' hys fun s1 h1 => ?_
  rw [wp_bind]
  refine h1.wp_swap ((assign_ne _ _ hne).trans ho) (assign_self _ _ _) fun s2 h2 => ?_
  have hold : (m.assign .arg ys).swap o .arg .arg = some xs := by
    rw [swap_right, assign_ne _ _ hne, ho]
  refine h2.wp_destroy hold hxs fun s3 h3 => ?_
  rw [erase_swap harg hne] at h3
  exact hQ s3 h3

theorem wp_insert (h : Holds s m) (ho : m o = some (xs ++ ys))
    (hQ : ∀ s', Holds s' (m.assign o (xs ++ x :: ys)) → Q () s') :
    wp (do let pos ← advance xs.length (← begin o); let _ ← insert o pos x) Q E s := by
  obtain ⟨R, h, hm⟩ := h
  obtain ⟨e, l, hring, hxs, _⟩ := exists_of_contents ((hm o).trans ho)
  obtain ⟨l, r, rfl, rfl, rfl⟩ := map_eq_append_iff.mp hxs
  rw [wp_bind, h.wp_begin hring, wp_bind, length_map, h.wp_advance (l := []) hring, wp_bind]
  refine h.wp_insert hring fun s' a h' => (wp_pure _ _ _ _).mpr (hQ s' (assign hm ?_ h'))
  simp [contents]

theorem wp_erase (h : Holds s m) (ho : m o = some (xs ++ x :: ys))
    (hQ : ∀ s', Holds s' (m.assign o (xs ++ ys)) → Q () s') :
    wp (do let pos ← advance xs.length (← begin o); let _ ← erase o pos) Q E s := by
  obtain ⟨R, h, hm⟩ := h
  obtain ⟨e, l, hring, hxs, _⟩ := exists_of_contents ((hm o).trans ho)
  obtain ⟨l, r, rfl, rfl, hr⟩ := map_eq_append_iff.mp hxs
  obtain ⟨d, r, rfl, rfl, rfl⟩ := map_eq_cons_iff.mp hr
  rw [wp_bind, h.wp_begin hring, wp_bind, length_map, h.wp_advance (l := []) hring, wp_bind]
  refine h.wp_erase hring fun s' h' => (wp_pure _ _ _ _).mpr (hQ s' (assign hm ?_ h'))
  simp [contents]

end Holds

section calls

variable {m m' : Dict I (List T)} {c : Call I T} {i j : I}

theorem insertIdx_length_append (as bs : List T) (x : T) :
    (as ++ bs).insertIdx as.length x = as ++ x :: bs := by
  induction as with
  | nil => rw [nil_append, length_nil, insertIdx_zero, nil_append]
  | cons a as ih => rw [cons_append, length_cons, insertIdx_succ_cons, ih,
      cons_append]

theorem wp_exec [Inhabited T] (h : Holds s (vars m)) (hc : c.onSeqs m = some m')
    (hfuel : ∀ i xs, m i = some xs → xs.length < fuel) :
    wp (exec fuel c) (fun _ s' => Holds s' (vars m')) E s := by
  cases c with
  | construct i =>
    obtain ⟨hi, rfl⟩ : m i = none ∧ m.assign i [] = m' := by
      simpa [Call.onSeqs, bind_eq_some_iff] using hc
    rw [exec, vars_assign]
    exact h.wp_emptyInitialize hi fun s' h' => h'
  | copy i j =>
    obtain ⟨ys, hj, hi, rfl⟩ : ∃ ys, m j = some ys ∧ m i = none ∧ m.assign i ys = m' := by
      simpa [Call.onSeqs, bind_eq_some_iff] using hc
    rw [exec, vars_assign]
    exact h.wp_copy hi rfl (by simp) hj (hfuel j ys hj) fun s' h' => h'
  | assign i j =>
    obtain ⟨⟨xs, hi⟩, ys, hj, rfl⟩ : (∃ xs, m i = some xs) ∧ ∃ ys, m j = some ys ∧
        m.assign i ys = m' := by simpa [Call.onSeqs, bind_eq_some_iff] using hc
    rw [exec, vars_assign]
    exact h.wp_assign hi rfl rfl hj (hfuel i xs hi) (hfuel j ys hj) fun s' h' => h'
  | swap i j =>
    obtain ⟨xs, hi, ys, hj, rfl⟩ : ∃ xs, m i = some xs ∧ ∃ ys, m j = some ys ∧
        (m.assign i ys).assign j xs = m' := by simpa [Call.onSeqs, bind_eq_some_iff] using hc
    rw [exec, assign_assign_swap hi hj, vars_swap hi hj]
    exact h.wp_swap hi hj fun s' h' => h'
  | destroy i =>
    obtain ⟨⟨xs, hi⟩, rfl⟩ : (∃ xs, m i = some xs) ∧ m.erase i = m' := by
      simpa [Call.onSeqs, bind_eq_some_iff] using hc
    rw [exec, vars_erase]
    exact h.wp_destroy hi (hfuel i xs hi) fun s' h' => h'
  | clear i =>
    obtain ⟨⟨xs, hi⟩, rfl⟩ : (∃ xs, m i = some xs) ∧ m.assign i [] = m' := by
      simpa [Call.onSeqs, bind_eq_some_iff] using hc
    rw [exec, vars_assign]
    exact h.wp_clear hi (hfuel i xs hi) fun s' h' => h'
  | pushBack i x =>
    obtain ⟨xs, hi, rfl⟩ : ∃ xs, m i = some xs ∧ m.assign i (xs ++ [x]) = m' := by
      simpa [Call.onSeqs, bind_eq_some_iff] using hc
    rw [exec, vars_assign]
    exact h.wp_pushBack hi fun s' h' => h'
  | pushFront i x =>
    obtain ⟨xs, hi, rfl⟩ : ∃ xs, m i = some xs ∧ m.assign i (x :: xs) = m' := by
      simpa [Call.onSeqs, bind_eq_some_iff] using hc
    rw [exec, vars_assign]
    exact h.wp_pushFront hi fun s' h' => h'
  | popBack i =>
    obtain ⟨xs, hi, hne, rfl⟩ : ∃ xs, m i = some xs ∧ xs ≠ [] ∧ m.assign i xs.dropLast = m' := by
      simpa [Call.onSeqs, bind_eq_some_iff] using hc
    rw [exec, vars_assign]
    exact h.wp_popBack hi hne fun s' h' => h'
  | popFront i =>
    obtain ⟨xs, hi, hne, rfl⟩ : ∃ xs, m i = some xs ∧ xs ≠ [] ∧ m.assign i xs.tail = m' := by
      simpa [Call.onSeqs, bind_eq_some_iff] using hc
    rw [exec, vars_assign]
    exact h.wp_popFront hi hne fun s' h' => h'
  | insert i n x =>
    obtain ⟨xs, hi, hn, rfl⟩ : ∃ xs, m i = some xs ∧ n ≤ xs.length ∧
        m.assign i (xs.insertIdx n x) = m' := by
      simpa [Call.onSeqs, bind_eq_some_iff] using hc
    obtain ⟨as, bs, rfl, rfl⟩ : ∃ as bs, xs = as ++ bs ∧ as.length = n :=
      ⟨xs.take n, xs.drop n, (take_append_drop n xs).symm, length_take_of_le hn⟩
    rw [exec, vars_assign]
    refine h.wp_insert hi fun s' h' => ?_
    rwa [insertIdx_length_append]
  | erase i n =>
    obtain ⟨xs, hi, hn, rfl⟩ : ∃ xs, m i = some xs ∧ n < xs.length ∧
        m.assign i (xs.eraseIdx n) = m' := by
      simpa [Call.onSeqs, bind_eq_some_iff] using hc
    obtain ⟨as, b, bs, rfl, rfl⟩ : ∃ as b bs, xs = as ++ b :: bs ∧ as.length = n :=
      ⟨xs.take n, xs[n], xs.drop (n + 1), by simp, length_take_of_le hn.le⟩
    rw [exec, vars_assign]
    refine h.wp_erase hi fun s' h' => ?_
    rwa [eraseIdx_append_of_length_le le_rfl, Nat.sub_self, eraseIdx_cons_zero]

end calls

end refinement

/-! ## Runs -/

section runs

variable {I T : Type} {s : Heap (Node T) × Dict (ObjName I) ListObj} {m : Dict I (List T)}

structure WellFormed (s : Heap (Node T) × Dict (ObjName I) ListObj) (m : Dict I (List T))
    (heads : I → Nat) (nodes : I → List (Nat × T)) : Prop where
  absent : ∀ i, m i = none → s.2 (.var i) = none
  members : ∀ i, (m i).isSome → s.2 (.var i) = some ⟨some (heads i), (nodes i).length⟩
  data : ∀ i xs, m i = some xs → (nodes i).map Prod.snd = xs
  once : ∀ i, (m i).isSome → (heads i :: addrs (nodes i)).Nodup
  next_prev : ∀ i, (m i).isSome → ∀ a ∈ heads i :: addrs (nodes i), ∃ b,
    s.1.field next a = some (some b) ∧ s.1.field prev b = some (some a)
  prev_next : ∀ i, (m i).isSome → ∀ a ∈ heads i :: addrs (nodes i), ∃ b,
    s.1.field prev a = some (some b) ∧ s.1.field next b = some (some a)
  forward : ∀ i, (m i).isSome → ∀ fuel, (nodes i).length < fuel →
    traverse next s.1 (heads i) fuel = some (nodes i)
  backward : ∀ i, (m i).isSome → ∀ fuel, (nodes i).length < fuel →
    traverse prev s.1 (heads i) fuel = some (nodes i).reverse
  apart : ∀ i j, (m i).isSome → (m j).isSome → i ≠ j →
    (heads i :: addrs (nodes i)).Disjoint (heads j :: addrs (nodes j))
  /-- No node is lost. -/
  cover : ∀ a, (s.1.cells a).isSome → ∃ i, (m i).isSome ∧ a ∈ heads i :: addrs (nodes i)

theorem Holds.wellFormed (h : Holds s (vars m)) : ∃ heads nodes, WellFormed s m heads nodes := by
  obtain ⟨R, h, hm⟩ := h
  let heads : I → Nat := fun i => ((R (.var i)).head?.map Prod.fst).getD 0
  let nodes : I → List (Nat × T) := fun i => (R (.var i)).tail
  have hring : ∀ i, (m i).isSome → ∃ e, R (.var i) = e :: nodes i ∧ heads i = e.1 := by
    intro i hi
    obtain ⟨xs, hxs⟩ := isSome_iff_exists.mp hi
    obtain ⟨e, l, hl, _⟩ := exists_of_contents ((hm (.var i)).trans hxs)
    exact ⟨e, by simp [nodes, hl], by simp [heads, hl]⟩
  have haddrs : ∀ i, (m i).isSome → addrs (R (.var i)) = heads i :: addrs (nodes i) := by
    intro i hi
    obtain ⟨e, he, hhead⟩ := hring i hi
    rw [he, hhead, Chain.addrs_cons]
  refine ⟨heads, nodes, ?_, ?_, ?_, ?_, ?_, ?_, ?_, ?_, ?_, ?_⟩
  · intro i hi
    rw [h.objects, eq_nil_of_contents ((hm (.var i)).trans hi)]
    rfl
  · intro i hi
    obtain ⟨e, he, hhead⟩ := hring i hi
    rw [h.objects, he, hhead]
    rfl
  · intro i xs hxs
    obtain ⟨e, l, hl, hlxs, _⟩ := exists_of_contents ((hm (.var i)).trans hxs)
    simpa [nodes, hl] using hlxs
  · intro i hi
    rw [← haddrs i hi]
    exact h.rings.nodup _
  · intro i hi a ha
    rw [← haddrs i hi] at ha
    exact h.rings.exists_next ha
  · intro i hi a ha
    rw [← haddrs i hi] at ha
    obtain ⟨b, hba, hab⟩ := h.rings.exists_prev ha
    exact ⟨b, hab, hba⟩
  · intro i hi fuel hfuel
    obtain ⟨e, he, hhead⟩ := hring i hi
    rw [hhead]
    exact h.rings.traverse_next he hfuel
  · intro i hi fuel hfuel
    obtain ⟨e, he, hhead⟩ := hring i hi
    rw [hhead]
    exact h.rings.traverse_prev he hfuel
  · intro i j hi hj hij a hai haj
    rw [← haddrs i hi] at hai
    rw [← haddrs j hj] at haj
    exact hij (ObjName.var.inj (h.rings.owner hai haj))
  · intro a ha
    obtain ⟨x, hx⟩ := isSome_iff_exists.mp ha
    obtain ⟨o, ho⟩ := h.rings.cover hx
    -- only a variable has a ring between calls
    have hsome : ((vars m) o).isSome := by
      rw [← hm o]
      cases hR : R o with
      | nil => simp [hR] at ho
      | cons e l => rfl
    cases o with
    | var i => exact ⟨i, hsome, by rwa [← haddrs i hsome]⟩
    | tmp => cases hsome
    | arg => cases hsome

variable [DecidableEq I]

def Short (k : Nat) (m : Dict I (List T)) : Prop := ∀ i xs, m i = some xs → xs.length ≤ k

variable {m m' : Dict I (List T)}

theorem Short.assign {k : Nat} (hm : Short k m) (i : I) {xs : List T}
    (hxs : xs.length ≤ k) : Short k (m.assign i xs) := by
  intro j ys hys
  by_cases hj : j = i
  · subst hj
    rw [assign_self] at hys
    cases hys
    exact hxs
  · rw [assign_ne _ _ hj] at hys
    exact hm j ys hys

theorem Short.erase {k : Nat} (hm : Short k m) (i : I) : Short k (m.erase i) := by
  intro j ys hys
  by_cases hj : j = i
  · rw [hj, erase_self] at hys
    cases hys
  · rw [erase_ne _ hj] at hys
    exact hm j ys hys

theorem Short.onSeqs {c : Call I T} {k : Nat} (hm : Short k m)
    (hc : c.onSeqs m = some m') : Short (k + 1) m' := by
  have hm' : Short (k + 1) m := fun i xs hxs => Nat.le_succ_of_le (hm i xs hxs)
  have hnil : ([] : List T).length ≤ k + 1 := Nat.zero_le _
  cases c <;> simp only [Call.onSeqs, bind_eq_bind, bind_eq_some_iff,
    ite_none_right_eq_some, ite_none_left_eq_some, some_inj] at hc
  case construct i =>
    obtain ⟨_, rfl⟩ := hc
    exact hm'.assign i hnil
  case copy i j =>
    obtain ⟨ys, hj, _, rfl⟩ := hc
    exact hm'.assign i (hm' j ys hj)
  case assign i j =>
    obtain ⟨xs, _, ys, hj, rfl⟩ := hc
    exact hm'.assign i (hm' j ys hj)
  case swap i j =>
    obtain ⟨xs, hi, ys, hj, rfl⟩ := hc
    exact (hm'.assign i (hm' j ys hj)).assign j (hm' i xs hi)
  case destroy i =>
    obtain ⟨xs, _, rfl⟩ := hc
    exact hm'.erase i
  case clear i =>
    obtain ⟨xs, _, rfl⟩ := hc
    exact hm'.assign i hnil
  case pushBack i x =>
    obtain ⟨xs, hi, rfl⟩ := hc
    refine hm'.assign i ?_
    rw [length_append, length_singleton]
    exact Nat.succ_le_succ (hm i xs hi)
  case pushFront i x =>
    obtain ⟨xs, hi, rfl⟩ := hc
    exact hm'.assign i (Nat.succ_le_succ (hm i xs hi))
  case popBack i =>
    obtain ⟨xs, hi, _, rfl⟩ := hc
    refine hm'.assign i (Nat.le_trans ?_ (hm' i xs hi))
    rw [length_dropLast]
    exact Nat.sub_le _ _
  case popFront i =>
    obtain ⟨xs, hi, _, rfl⟩ := hc
    refine hm'.assign i (Nat.le_trans ?_ (hm' i xs hi))
    rw [length_tail]
    exact Nat.sub_le _ _
  case insert i n x =>
    obtain ⟨xs, hi, hn, rfl⟩ := hc
    refine hm'.assign i ?_
    rw [length_insertIdx_of_le_length hn]
    exact Nat.succ_le_succ (hm i xs hi)
  case erase i n =>
    obtain ⟨xs, hi, _, rfl⟩ := hc
    exact hm'.assign i (Nat.le_trans (length_eraseIdx_le _ _) (hm' i xs hi))

theorem wp_runAll_exec [Inhabited T] {cs : List (Call I T)} {k fuel : Nat}
    (h : Holds s (vars m)) (hcs : allOnSeqs m cs = some m')
    (hm : Short k m) (hfuel : k + cs.length < fuel) :
    wp (runAll (exec fuel) cs) (fun _ s' => Holds s' (vars m')) (fun _ => False) s := by
  induction cs generalizing s m k with
  | nil =>
    obtain rfl : m = m' := by simpa [allOnSeqs] using hcs
    rw [runAll, wp_pure]
    exact h
  | cons c cs ih =>
    obtain ⟨m1, hc, hcs⟩ : ∃ m1, c.onSeqs m = some m1 ∧ allOnSeqs m1 cs = some m' := by
      simpa [allOnSeqs, bind_eq_some_iff] using hcs
    rw [length_cons] at hfuel
    rw [runAll, wp_bind]
    refine wp_imp (wp_exec h hc fun i xs hxs => ?_) (fun _ s1 h1 => ?_)
    · have := hm i xs hxs
      omega
    · exact ih h1 hcs (hm.onSeqs hc) (by omega)

/-- Any number of lists is a family of well-formed rings that holds the sequences. -/
theorem lists_refine_seqs [Inhabited T] (cs : List (Call I T)) (m : Dict I (List T))
    (hcs : allOnSeqs Dict.empty cs = some m) (fuel : Nat) (hfuel : cs.length < fuel) :
    ∃ s heads nodes, runAll (exec fuel) cs (Heap.empty, Dict.empty) = .ok () s ∧
      WellFormed s m heads nodes := by
  have hempty : Holds (Heap.empty, Dict.empty) (vars (Dict.empty : Dict I (List T))) := by
    refine ⟨_, listsOk_empty, fun o => ?_⟩
    cases o <;> rfl
  have hshort : Short 0 (Dict.empty : Dict I (List T)) := fun _ _ hxs => (by cases hxs)
  obtain ⟨_, s, hrun, h⟩ := exists_of_wp (wp_runAll_exec hempty hcs hshort (by rwa [Nat.zero_add]))
  obtain ⟨heads, nodes, hwf⟩ := h.wellFormed
  exact ⟨s, heads, nodes, hrun, hwf⟩

end runs

def sample : List (Call Nat Nat) :=
  [.construct 0, .pushBack 0 1, .pushFront 0 2, .copy 1 0, .popBack 1, .assign 0 0, .swap 0 1,
    .insert 1 1 5, .erase 1 0, .clear 0, .assign 0 1, .popFront 0]

theorem lists_refine_seqs_sample :
    ∃ m, allOnSeqs Dict.empty sample = some m ∧ m 0 = some [1] ∧ m 1 = some [5, 1] ∧
      sample.length < 13 ∧ ∃ s heads nodes,
        runAll (exec 13) sample (Heap.empty, Dict.empty) = .ok () s ∧ WellFormed s m heads nodes :=
  ⟨_, rfl, rfl, rfl, by decide, lists_refine_seqs sample _ rfl 13 (by decide)⟩

end CallLesson.Algorithm.ZhcList
