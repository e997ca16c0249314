import DataStructure.Lib.LinkedTree
import DataStructure.Lib.KeyedTree

/-! The splay tree of `tree/splaytree/splay.c`. -/

namespace DataStructure.Splay

open DataStructure.Program DataStructure.Heap DataStructure.Zipper DataStructure.LinkedTree

structure Node where
  l : Ptr
  r : Ptr
  p : Ptr
  v : Int
  deriving DecidableEq, Repr

structure Globals where
  root : Ptr
  deriving DecidableEq, Repr

abbrev State := Store Globals Node

def Node.child (n : Node) : Side → Ptr
  | .left => n.l
  | .right => n.r

def Node.setChild (n : Node) (d : Side) (q : Ptr) : Node :=
  match d with
  | .left => { n with l := q }
  | .right => { n with r := q }

/-- `rightRotate` and `leftRotate` with the sides named: the child `T` of `P` on
side `d` takes the place of `P`. Both functions test `D->r` first. -/
def rotate (d : Side) (P : Ptr) : Prog State Unit := do
  let T := (← load P).child d
  let B := (← load T).child d.flip
  let D := (← load P).p
  onlyIf D.isSome do
    if (← load D).r = P then assign D fun n => { n with r := T }
    else assign D fun n => { n with l := T }
  onlyIf B.isSome (assign B fun n => { n with p := P })
  assign T fun n => { n with p := D }
  assign T fun n => n.setChild d.flip P
  assign P fun n => { n with p := T }
  assign P fun n => n.setChild d B

def rightRotate (P : Ptr) : Prog State Unit := rotate .left P

def leftRotate (P : Ptr) : Prog State Unit := rotate .right P

def zig (T p : Ptr) : Prog State Unit := do
  if (← load p).l = T then rightRotate p else leftRotate p

def zigzag (T p pp : Ptr) : Prog State Unit := do
  if (← load pp).l = p then
    if (← load p).l = T then do
      rightRotate pp
      rightRotate p
    else do
      leftRotate p
      rightRotate pp
  else
    if (← load p).l = T then do
      rightRotate p
      leftRotate pp
    else do
      leftRotate pp
      leftRotate p

def splayLoop : Nat → Ptr → Prog State Unit
  | 0, _ => fault .stuck
  | fuel + 1, T => do
      let p := (← load T).p
      if p = none then pure ()
      else do
        let pp := (← load p).p
        if pp = none then zig T p
        else do
          zigzag T p pp
          splayLoop fuel T

def splay (T : Ptr) : Prog State Unit := do
  splayLoop (← cells) T
  writeGlob fun g => { g with root := T }

def insertLoop (v : Int) : Nat → Ptr → Prog State Ptr
  | 0, _ => fault .stuck
  | fuel + 1, P => do
      let n ← load P
      if n.v = v then pure P
      else if v < n.v then
        if n.l ≠ none then insertLoop v fuel n.l
        else do
          let q ← malloc ⟨none, none, P, v⟩
          assign P fun n => { n with l := q }
          pure q
      else
        if n.r ≠ none then insertLoop v fuel n.r
        else do
          let q ← malloc ⟨none, none, P, v⟩
          assign P fun n => { n with r := q }
          pure q

def insert (v : Int) : Prog State Unit := do
  let root := (← readGlob).root
  if root = none then do
    let q ← malloc ⟨none, none, none, v⟩
    writeGlob fun g => { g with root := q }
  else do
    let P ← insertLoop v (← cells) root
    splay P

def findLoop (v : Int) : Nat → Ptr → Prog State Ptr
  | 0, _ => fault .stuck
  | fuel + 1, P => do
      let n ← load P
      if n.v = v then pure P
      else if v < n.v then
        if n.l ≠ none then findLoop v fuel n.l else pure P
      else
        if n.r ≠ none then findLoop v fuel n.r else pure P

def find (v : Int) : Prog State Ptr := do
  let root := (← readGlob).root
  if root = none then pure none
  else do
    let P ← findLoop v (← cells) root
    splay P
    if (← load P).v = v then pure P else pure none

def rightmost : Nat → Ptr → Prog State Ptr
  | 0, _ => fault .stuck
  | fuel + 1, P => do
      let n ← load P
      if n.r ≠ none then rightmost fuel n.r else pure P

def replaceRoot (N q : Ptr) : Prog State Int := do
  writeGlob fun g => { g with root := q }
  assign (← readGlob).root fun n => { n with p := none }
  free N
  pure 1

/-- `Erase` once the node `N` is the root: its subtrees are joined and it is freed. -/
def eraseRoot (N : Ptr) : Prog State Int := do
  let P := (← load N).l
  if P = none then replaceRoot N (← load N).r
  else do
    let P ← rightmost (← cells) P
    let r := (← load N).r
    onlyIf r.isSome do
      assign P fun n => { n with r := r }
      assign r fun n => { n with p := P }
    replaceRoot N (← load N).l

def erase (v : Int) : Prog State Int := do
  let N ← find v
  if N = none then pure 0
  else do
    splay N
    eraseRoot N

structure Label where
  addr : Nat
  v : Int
  deriving DecidableEq, Repr

def layout : Layout Label Node := ⟨Label.addr, fun a l r p => ⟨l, r, p, a.v⟩⟩

@[simp] theorem cell_l (a : Label) (l r p : Ptr) : (layout.cell a l r p).l = l := by simp [layout]

@[simp] theorem cell_r (a : Label) (l r p : Ptr) : (layout.cell a l r p).r = r := by simp [layout]

@[simp] theorem cell_p (a : Label) (l r p : Ptr) : (layout.cell a l r p).p = p := by simp [layout]

@[simp] theorem cell_v (a : Label) (l r p : Ptr) : (layout.cell a l r p).v = a.v := by simp [layout]

@[simp] theorem side_child (d : Side) (a : Label) (x y p : Ptr) :
    (layout.side d a x y p).child d = x := by cases d <;> rfl

@[simp] theorem side_child_flip (d : Side) (a : Label) (x y p : Ptr) :
    (layout.side d a x y p).child d.flip = y := by cases d <;> rfl

@[simp] theorem side_p (d : Side) (a : Label) (x y p : Ptr) :
    (layout.side d a x y p).p = p := by cases d <;> rfl

@[simp] theorem setChild_side (d : Side) (a : Label) (x y p q : Ptr) :
    (layout.side d a x y p).setChild d q = layout.side d a q y p := by cases d <;> rfl

@[simp] theorem setChild_side_flip (d : Side) (a : Label) (x y p q : Ptr) :
    (layout.side d a x y p).setChild d.flip q = layout.side d a x q p := by cases d <;> rfl

@[simp] theorem setParent_side (d : Side) (a : Label) (x y p q : Ptr) :
    ({ layout.side d a x y p with p := q } : Node) = layout.side d a x y q := by cases d <;> rfl

theorem rotate_spec (s : State) (trail : Trail Label) (d : Side) (P T : Label)
    (A B C : BinaryTree Label)
    (held : Holds layout s (plug trail (join d P (join d T A B) C))) :
    wp (rotate d (some (layout.addr P))) (fun _ s' =>
      Holds layout s' (plug trail (join d T A (join d P B C))) ∧
        s'.brk = s.brk ∧ s'.glob = s.glob) s := by
  have focus := (holds_plug s trail _).mp held
  have apart := focus.apart
  obtain ⟨cellP, ⟨cellT, _, linkedB⟩, _⟩ := by simpa using focus.subtree
  unfold rotate
  simp only [wp_bind, wp_load, cellP, cellT, Option.some.injEq, exists_eq_left', side_child,
    side_child_flip, side_p]
  refine wp_repoint_if s trail (layout.addr P) (some (layout.addr T)) .right Node.r
    (fun n => { n with r := some (layout.addr T) }) (fun n => { n with l := some (layout.addr T) })
    (fun _ _ _ _ => rfl) (fun _ _ _ _ => rfl) (fun _ _ _ _ => rfl)
    (by simpa using focus.around) apart.trailP apart.nodupTrail _ ?_
  intro s₁ around₁ touches₁
  refine (wp_bind _ _ _ _).mpr (wp_reparent s₁ B (some (layout.addr T)) (some (layout.addr P))
    (fun n => { n with p := some (layout.addr P) }) (fun _ _ _ => rfl)
    (touches₁.linked _ B apart.trail_B linkedB) apart.nodupB _ ?_)
  intro s₂ linkedB₂ touches₂
  have keeps (a : Nat) (b : a ∉ layout.addrs B) (t : a ∉ layout.trailAddrs trail) :
      s₂.cell a = s.cell a := (touches₂.cell a b).trans (touches₁.cell a t)
  have cellP₂ := (keeps _ apart.B_P apart.trailP).trans cellP
  have cellT₂ := (keeps _ apart.B_T apart.trailT).trans cellT
  have around₂ := touches₂.linkedTrail _ _ _ (fun a inside member => apart.trail_B a member inside) around₁
  simp only [wp_bind, wp_assign, cellT₂, cellP₂, Option.some.injEq, exists_eq_left',
    Store.put_cell_self, Store.put_cell_of_ne _ _ _ _ apart.ne, setParent_side, setChild_side,
    setChild_side_flip]
  refine ⟨focus.rotated rfl rfl ?_ ?_ ?_ ?_ ?_ ?_, ?_, ?_⟩
  · simp [touches₁.brk, touches₂.brk]
  · simp
  · simp [apart.ne.symm]
  · simpa [apart.B_P, apart.B_T] using linkedB₂
  · simpa [apart.trailP, apart.trailT] using around₂
  · intro a awayP awayT awayB awayTrail
    simpa [awayP, awayT] using keeps a awayB awayTrail
  · simp [touches₁.brk, touches₂.brk]
  · simp [touches₁.glob, touches₂.glob]

end DataStructure.Splay
