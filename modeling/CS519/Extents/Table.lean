import CS519.Tree
import CS519.Extents.Extent

/-!
# The extent table

The software page table of an address space: a red-black tree of extents keyed by their first page, with
the page-fault entry point `extent_rb_insert_or_add`, the unmap entry point `extent_rb_remove_page` and
the teardown `extent_rb_destroy`. The balanced-tree library is a parameter `rb` (`Rebalance`).

A pointer to a node of the tree is modelled by the node's address: `set_ex` is a write through it, and
erasing is by address. Each function of the source that holds the lock is written with its branches as
functions of their own, under the names of the cases in its comment.
-/

namespace CS519.Extents

/-- The wrapper that puts an extent into the tree. -/
structure ExtentNode where
  addr : Nat
  ex : Extent
deriving DecidableEq, Repr

structure ExtentPagetable where
  root : Tree ExtentNode
deriving DecidableEq, Repr

/-- The table of a new address space. -/
def ExtentPagetable.empty : ExtentPagetable := ⟨.nil⟩

/-- The test that designates the node at an address. -/
def ExtentNode.at (addr : Nat) (en : ExtentNode) : Bool := en.addr = addr

/-- Write the extent of the node at an address. -/
def set_ex (addr : Nat) (ex : Extent) (root : Tree ExtentNode) : Tree ExtentNode :=
  root.map fun en => if en.addr = addr then { en with ex } else en

section Search

/-- Insert a node by its first page. Does not check where the page lies. -/
def extent_rb_insert (rb : Rebalance ExtentNode) (root : Tree ExtentNode) (en : ExtentNode) :
    Tree ExtentNode :=
  let value := en.ex.starting_phys_addr
  rb.insertColor (ExtentNode.at en.addr) (root.link (fun cur => cur.ex.starting_phys_addr > value) en)

def extent_rb_find_by_start (root : Tree ExtentNode) (key : ulong) : Option ExtentNode :=
  root.find (fun en => key < en.ex.starting_phys_addr) (fun en => key > en.ex.starting_phys_addr)

def extent_rb_find_left_neighbor (root : Tree ExtentNode) (phys_addr : ulong) : Option ExtentNode :=
  match root.descend (fun en => en.ex.starting_phys_addr < phys_addr) none with
  | some best => if best.ex.ending_phys_addr = phys_addr - 1 then some best else none
  | none => none

/-- The nodes adjacent to a page, the left one first. Their number is the length of the result. -/
def extent_rb_find_all_adjacent (root : Tree ExtentNode) (phys_addr : ulong) : List ExtentNode :=
  (extent_rb_find_left_neighbor root phys_addr).toList ++
    (extent_rb_find_by_start root (phys_addr + 1)).toList

def extent_rb_find_containing (root : Tree ExtentNode) (phys_addr : ulong) : Option ExtentNode :=
  match root.descend (fun en => en.ex.starting_phys_addr ≤ phys_addr) none with
  | some best => if phys_addr ≤ best.ex.ending_phys_addr then some best else none
  | none => none

end Search

section Update
variable (rb : Rebalance ExtentNode)

/-- Case 1.5: the page joins two extents. The return codes of both helpers are dropped. -/
def insert_between (pt : ExtentPagetable) (phys_addr : ulong) (adj0 adj1 : ExtentNode) :
    Kern (Int × ExtentPagetable) := do
  let (left_en, right_en) :=
    if adj0.ex.ending_phys_addr = phys_addr - 1 then (adj0, adj1) else (adj1, adj0)
  let (_, left_ex) ← extent_add_adjacent left_en.ex phys_addr
  -- without the page the two extents do not touch, but the right node goes all the same
  let (_, left_ex, _) ← extent_merge left_ex right_en.ex
  let root := rb.erase (ExtentNode.at right_en.addr) (set_ex left_en.addr left_ex pt.root)
  kfree .extent_node right_en.addr
  return (0, ⟨root⟩)

/-- Case 1: the page extends one extent. The return code of the helper is dropped. -/
def insert_adjacent (pt : ExtentPagetable) (phys_addr : ulong) (en : ExtentNode) :
    Kern (Int × ExtentPagetable) := do
  if phys_addr = en.ex.starting_phys_addr - 1 then
    -- the key changes, so the node is out of the tree meanwhile
    let root := rb.erase (ExtentNode.at en.addr) pt.root
    let (_, ex) ← extent_add_adjacent en.ex phys_addr
    return (0, ⟨extent_rb_insert rb root { en with ex }⟩)
  else
    let (_, ex) ← extent_add_adjacent en.ex phys_addr
    return (0, ⟨set_ex en.addr ex pt.root⟩)

/-- Case 2: the page gets an extent of its own. The return code of `extent_init` is dropped. -/
def insert_new (pt : ExtentPagetable) (phys_addr : ulong) : Kern (Int × ExtentPagetable) := do
  match ← kmalloc .extent .GFP_ATOMIC with
  | none => return (-ENOMEM, pt)
  | some ex =>
    match ← kmalloc .extent_node .GFP_ATOMIC with
    | none => do
      kfree .extent ex
      return (-ENOMEM, pt)
    | some en => do
      let (_, ex) ← extent_init (.fresh ex) phys_addr
      return (0, ⟨extent_rb_insert rb pt.root ⟨en, ex⟩⟩)

/-- The three cases, by the nodes found next to the page. -/
def insert_beside (pt : ExtentPagetable) (phys_addr : ulong) :
    List ExtentNode → Kern (Int × ExtentPagetable)
  | [adj0, adj1] => insert_between rb pt phys_addr adj0 adj1
  | [en] => insert_adjacent rb pt phys_addr en
  | _ => insert_new rb pt phys_addr

/-- Called when a page fault occurs. -/
def extent_rb_insert_or_add (pt : ExtentPagetable) (phys_addr : ulong) :
    Kern (Int × ExtentPagetable) :=
  with_lock (insert_beside rb pt phys_addr (extent_rb_find_all_adjacent pt.root phys_addr))

/-- Case 1 of a removal: the page is the first or the last one of its extent. -/
def remove_edge (pt : ExtentPagetable) (phys_addr : ulong) (old_en : ExtentNode) :
    Kern (Int × ExtentPagetable) := do
  let was_start := phys_addr = old_en.ex.starting_phys_addr
  if old_en.ex.pgcount = 1 then
    let (_, ex) ← extent_trim old_en.ex phys_addr
    let root := rb.erase (ExtentNode.at old_en.addr) pt.root
    -- freed by hand, whatever is left on its list
    kfree .extent ex.addr
    kfree .extent_node old_en.addr
    return (0, ⟨root⟩)
  if was_start then
    let root := rb.erase (ExtentNode.at old_en.addr) pt.root
    let (_, ex) ← extent_trim old_en.ex phys_addr
    return (0, ⟨extent_rb_insert rb root { old_en with ex }⟩)
  else
    let (_, ex) ← extent_trim old_en.ex phys_addr
    return (0, ⟨set_ex old_en.addr ex pt.root⟩)

/-- Case 2 of a removal: the page lies inside its extent. -/
def remove_middle (pt : ExtentPagetable) (phys_addr : ulong) (old_en : ExtentNode) :
    Kern (Int × ExtentPagetable) := do
  match ← kmalloc .extent .GFP_ATOMIC with
  | none => return (-ENOMEM, pt)
  | some right_ex =>
    match ← kmalloc .extent_node .GFP_ATOMIC with
    | none => do
      kfree .extent right_ex
      return (-ENOMEM, pt)
    | some left_en =>
      match ← kmalloc .extent_node .GFP_ATOMIC with
      | none => do
        kfree .extent right_ex
        kfree .extent_node left_en
        return (-ENOMEM, pt)
      | some right_en => do
        let (_, old_ex, right_ex) ← extent_split old_en.ex phys_addr (.fresh right_ex)
        let root := rb.erase (ExtentNode.at old_en.addr) pt.root
        kfree .extent_node old_en.addr
        let root := extent_rb_insert rb root ⟨left_en, old_ex⟩
        return (0, ⟨extent_rb_insert rb root ⟨right_en, right_ex⟩⟩)

/-- The cases of a removal, by the node found to contain the page. -/
def remove_from (pt : ExtentPagetable) (phys_addr : ulong) :
    Option ExtentNode → Kern (Int × ExtentPagetable)
  | none => return (-EINVAL, pt)
  | some old_en =>
    if phys_addr = old_en.ex.starting_phys_addr ∨ phys_addr = old_en.ex.ending_phys_addr then
      remove_edge rb pt phys_addr old_en
    else
      remove_middle rb pt phys_addr old_en

/-- Called whenever a page is freed. -/
def extent_rb_remove_page (pt : ExtentPagetable) (phys_addr : ulong) :
    Kern (Int × ExtentPagetable) :=
  with_lock (remove_from rb pt phys_addr (extent_rb_find_containing pt.root phys_addr))

end Update

section Destroy

def rb_first (root : Tree ExtentNode) : Option ExtentNode := root.inorder.head?

/-- The node after `en` in the in-order sequence. -/
def rb_next (root : Tree ExtentNode) (en : ExtentNode) : Option ExtentNode :=
  (root.inorder.dropWhile (fun n => !n.at en.addr)).tail.head?

/-- The loop of the teardown, with the nodes it has visited. It runs until the cursor is `NULL`, or for
`fuel` rounds. -/
def destroy_loop (rb : Rebalance ExtentNode) :
    Nat → Tree ExtentNode → Option ExtentNode → List ExtentNode →
      Kern (Option (Tree ExtentNode × List ExtentNode))
  | _, root, none, visited => return some (root, visited)
  | 0, _, some _, _ => return none
  | fuel + 1, root, some en, visited => do
    let node := rb_next root en
    let root := rb.erase (ExtentNode.at en.addr) root
    kfree .extent en.ex.addr
    kfree .extent_node en.addr
    destroy_loop rb fuel root node (visited ++ [en])

/-- Called on process exit. Returns the tree that is left and the nodes visited. -/
def extent_rb_destroy (rb : Rebalance ExtentNode) (fuel : Nat) (pt : ExtentPagetable) :
    Kern (Option (Tree ExtentNode × List ExtentNode)) :=
  with_lock (destroy_loop rb fuel pt.root (rb_first pt.root) [])

end Destroy

end CS519.Extents
