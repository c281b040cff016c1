import Mathlib.Data.List.Nodup
import Mathlib.Data.List.Perm.Subperm
import Mathlib.Algebra.Order.Group.Nat

/-!
# Breadth-first order of a tree

A queue of nodes of a finite tree is run: its first node is taken and the children of that node
are added at the end.  With as many steps as there are nodes it becomes empty, every node comes
out of it, and nodes come out by increasing depth.  A run that is out of fuel before the queue
is empty has no result.
-/

namespace Mold.Lib.BreadthFirst

variable {ν σ : Type*}

/-- The state after all nodes of the queue, and those below them, have been visited. -/
def runQueue (children : ν → List ν) (visit : σ → ν → σ) : ℕ → List ν → σ → Option σ
  | _, [], s => some s
  | 0, _ :: _, _ => none
  | n + 1, cur :: queue, s => runQueue children visit n (queue ++ children cur) (visit s cur)

def order (children : ν → List ν) : ℕ → List ν → List ν
  | _, [] => []
  | 0, _ :: _ => []
  | n + 1, cur :: queue => cur :: order children n (queue ++ children cur)

@[simp] theorem order_nil (children : ν → List ν) (n : ℕ) : order children n [] = [] := by
  cases n with
  | zero => rfl
  | succ n => rfl

/-- What holds of a state and of what has been visited so far holds at the end. -/
theorem foldl_induction {α : Type*} {visit : σ → α → σ} {P : List α → σ → Prop} {l : List α}
    {s : σ} (hstart : P [] s)
    (hstep : ∀ done x rest s, l = done ++ x :: rest → P done s → P (done ++ [x]) (visit s x)) :
    P l (l.foldl visit s) := by
  have hrun : ∀ rest done s, l = done ++ rest → P done s → P l (rest.foldl visit s) := by
    intro rest
    induction rest with
    | nil =>
      intro done s hl h
      rwa [hl, List.append_nil]
    | cons x rest ih =>
      intro done s hl h
      refine ih (done ++ [x]) (visit s x) ?_ (hstep done x rest s hl h)
      rw [hl, List.append_assoc, List.singleton_append]
  exact hrun l [] s rfl hstart

/-! ## Trees -/

structure Tree (nodes : List ν) (children : ν → List ν) (depth : ν → ℕ) : Prop where
  mem : ∀ p, ∀ c ∈ children p, c ∈ nodes
  nodup : ∀ p, (children p).Nodup
  parent : ∀ p q c, c ∈ children p → c ∈ children q → p = q
  depth : ∀ p, ∀ c ∈ children p, depth c = depth p + 1

section

variable {nodes : List ν} {children : ν → List ν} {depth : ν → ℕ}

structure Level (depth : ν → ℕ) (queue : List ν) : Prop where
  sorted : queue.Pairwise fun x y => depth x ≤ depth y
  spread : ∀ x ∈ queue, ∀ y ∈ queue, depth y ≤ depth x + 1

variable {queue : List ν}

theorem Level.next (htree : Tree nodes children depth) {cur : ν}
    (h : Level depth (cur :: queue)) : Level depth (queue ++ children cur) := by
  have hhead := (List.pairwise_cons.mp h.sorted).1
  have hspread : ∀ x ∈ queue, depth x ≤ depth cur + 1 := fun x hx =>
    h.spread cur List.mem_cons_self x (List.mem_cons_of_mem _ hx)
  constructor
  · refine List.pairwise_append.mpr ⟨(List.pairwise_cons.mp h.sorted).2, ?_, ?_⟩
    · refine List.pairwise_of_forall_mem_list fun x hx y hy => ?_
      rw [htree.depth cur x hx, htree.depth cur y hy]
    · intro x hx y hy
      rw [htree.depth cur y hy]
      exact hspread x hx
  · intro x hx y hy
    rcases List.mem_append.mp hx with hx | hx <;> rcases List.mem_append.mp hy with hy | hy
    · exact h.spread x (List.mem_cons_of_mem _ hx) y (List.mem_cons_of_mem _ hy)
    · rw [htree.depth cur y hy]
      exact Nat.add_le_add_right (hhead x hx) 1
    · rw [htree.depth cur x hx]
      exact Nat.le_succ_of_le (hspread y hy)
    · rw [htree.depth cur x hx, htree.depth cur y hy]
      exact Nat.le_succ _

/-- What comes out of a queue is no higher in the tree than some node of it. -/
theorem exists_le_of_mem_order (htree : Tree nodes children depth) {n : ℕ} :
    ∀ y ∈ order children n queue, ∃ x ∈ queue, depth x ≤ depth y := by
  induction n generalizing queue with
  | zero =>
    cases queue with
    | nil => exact List.forall_mem_nil _
    | cons cur queue => exact List.forall_mem_nil _
  | succ n ih =>
    cases queue with
    | nil => exact List.forall_mem_nil _
    | cons cur queue =>
      refine List.forall_mem_cons.mpr ⟨⟨cur, List.mem_cons_self, Nat.le_refl _⟩, ?_⟩
      intro y hy
      obtain ⟨x, hx, hle⟩ := ih y hy
      rcases List.mem_append.mp hx with hx | hx
      · exact ⟨x, List.mem_cons_of_mem _ hx, hle⟩
      · rw [htree.depth cur x hx] at hle
        exact ⟨cur, List.mem_cons_self, Nat.le_of_succ_le hle⟩

theorem pairwise_order (htree : Tree nodes children depth) {n : ℕ} (h : Level depth queue) :
    (order children n queue).Pairwise fun x y => depth x ≤ depth y := by
  induction n generalizing queue with
  | zero =>
    cases queue with
    | nil => exact .nil
    | cons cur queue => exact .nil
  | succ n ih =>
    cases queue with
    | nil => exact .nil
    | cons cur queue =>
      refine List.pairwise_cons.mpr ⟨fun y hy => ?_, ih (h.next htree)⟩
      obtain ⟨x, hx, hle⟩ := exists_le_of_mem_order htree y hy
      refine Nat.le_trans ?_ hle
      rcases List.mem_append.mp hx with hx | hx
      · exact (List.pairwise_cons.mp h.sorted).1 x hx
      · rw [htree.depth cur x hx]
        exact Nat.le_succ _

/-- The nodes that came out of the queue and those in it are different nodes of the tree, and
besides the first ones each comes after its parent. -/
structure Popped (nodes : List ν) (children : ν → List ν) (start popped queue : List ν) :
    Prop where
  mem : ∀ x ∈ popped ++ queue, x ∈ nodes
  nodup : (popped ++ queue).Nodup
  closed : ∀ x ∈ popped, ∀ c ∈ children x, c ∈ popped ++ queue
  parent : ∀ x ∈ popped ++ queue, x ∈ start ∨ ∃ p ∈ popped, x ∈ children p

theorem Popped.next (htree : Tree nodes children depth) {start popped queue : List ν} {cur : ν}
    (hstart : ∀ p ∈ nodes, ∀ c ∈ children p, c ∉ start)
    (h : Popped nodes children start popped (cur :: queue)) :
    Popped nodes children start (popped ++ [cur]) (queue ++ children cur) := by
  have hcur : cur ∈ nodes := h.mem cur (List.mem_append_right _ List.mem_cons_self)
  have hassoc : popped ++ [cur] ++ (queue ++ children cur) =
      (popped ++ cur :: queue) ++ children cur := by
    simp
  have hcurNot : cur ∉ popped := fun hmem =>
    (List.nodup_append.mp h.nodup).2.2 cur hmem cur List.mem_cons_self rfl
  constructor
  · intro x hx
    rw [hassoc] at hx
    exact (List.mem_append.mp hx).elim (h.mem x) (htree.mem cur x)
  · rw [hassoc]
    refine List.nodup_append.mpr ⟨h.nodup, htree.nodup cur, fun x hx y hy heq => ?_⟩
    subst heq
    rcases h.parent x hx with hs | ⟨p, hp, hxp⟩
    · exact hstart cur hcur x hy hs
    · exact hcurNot (htree.parent p cur x hxp hy ▸ hp)
  · intro x hx c hc
    rw [hassoc]
    rcases List.mem_append.mp hx with hx | hx
    · exact List.mem_append_left _ (h.closed x hx c hc)
    · rw [List.mem_singleton.mp hx] at hc
      exact List.mem_append_right _ hc
  · intro x hx
    rw [hassoc] at hx
    rcases List.mem_append.mp hx with hx | hx
    · exact (h.parent x hx).imp id fun ⟨p, hp, hxp⟩ => ⟨p, List.mem_append_left _ hp, hxp⟩
    · exact Or.inr ⟨cur, List.mem_append_right _ List.mem_cons_self, hx⟩

/-- The queue becomes empty, and the children of every node that came out came out too. -/
theorem Popped.order_closed (htree : Tree nodes children depth) {start popped queue : List ν}
    {n : ℕ} (hstart : ∀ p ∈ nodes, ∀ c ∈ children p, c ∉ start)
    (hn : nodes.length ≤ popped.length + n) (h : Popped nodes children start popped queue)
    (visit : σ → ν → σ) (s : σ) :
    runQueue children visit n queue s = some ((order children n queue).foldl visit s) ∧
      Popped nodes children start (popped ++ order children n queue) [] ∧
      ∀ x ∈ popped ++ queue, x ∈ popped ++ order children n queue := by
  induction n generalizing popped queue s with
  | zero =>
    have hlen := (h.nodup.subperm h.mem).length_le
    obtain rfl : queue = [] := List.eq_nil_of_length_eq_zero (by
      rw [List.length_append] at hlen
      omega)
    exact ⟨rfl, by rw [order_nil, List.append_nil]; exact h, fun x hx => hx⟩
  | succ n ih =>
    cases queue with
    | nil => exact ⟨rfl, by rw [order_nil, List.append_nil]; exact h, fun x hx => hx⟩
    | cons cur queue =>
      obtain ⟨hrun, hpopped, hall⟩ := ih (by rw [List.length_append, List.length_singleton]; omega)
        (h.next htree hstart) (visit s cur)
      have hassoc : popped ++ [cur] ++ order children n (queue ++ children cur) =
          popped ++ order children (n + 1) (cur :: queue) :=
        (List.append_cons popped cur _).symm
      rw [hassoc] at hpopped hall
      refine ⟨hrun, hpopped, fun x hx => hall x ?_⟩
      rw [List.append_cons] at hx
      rw [← List.append_assoc]
      exact List.mem_append_left _ hx

end

/-- A queue of nodes of a tree that are not below each other is run to its end. -/
theorem runQueue_eq {nodes : List ν} {children : ν → List ν} {depth : ν → ℕ}
    (htree : Tree nodes children depth) {queue : List ν} (hmem : ∀ x ∈ queue, x ∈ nodes)
    (hnodup : queue.Nodup) (hno : ∀ p ∈ nodes, ∀ c ∈ children p, c ∉ queue) {n : ℕ}
    (hn : nodes.length ≤ n) (visit : σ → ν → σ) (s : σ) :
    runQueue children visit n queue s = some ((order children n queue).foldl visit s) ∧
      (order children n queue).Nodup ∧
      (∀ x ∈ queue, x ∈ order children n queue) ∧ (∀ x ∈ order children n queue, x ∈ nodes) ∧
      ∀ x ∈ order children n queue, ∀ c ∈ children x, c ∈ order children n queue := by
  have hstart : Popped nodes children queue [] queue :=
    ⟨hmem, hnodup, fun x hx => absurd hx List.not_mem_nil, fun x hx => Or.inl hx⟩
  obtain ⟨hrun, hend, hall⟩ := hstart.order_closed htree hno (Nat.le_add_left_of_le hn) visit s
  rw [List.nil_append] at hend hall
  have hnodup := hend.nodup
  rw [List.append_nil] at hnodup
  refine ⟨hrun, hnodup, hall, fun x hx => hend.mem x (List.mem_append_left _ hx),
    fun x hx c hc => ?_⟩
  have hmem := hend.closed x hx c hc
  rwa [List.append_nil] at hmem

end Mold.Lib.BreadthFirst
