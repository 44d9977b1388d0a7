import CS519.Extents.Kernel

/-!
# Extents

The extent and its operations. An extent holds its pages twice: as two bounds with a count, and as a
list of page nodes. The functions below are the ones of `mm/memory.c`; a C function that changes the
extent it is given returns the changed extent beside its return code.
-/

namespace CS519.Extents

structure ExtentPage where
  addr : Nat
  page : ulong
deriving DecidableEq, Repr

/-- A contiguous set of physical pages. -/
structure Extent where
  addr : Nat
  extent_pagelist : List ExtentPage
  pgcount : Int
  starting_phys_addr : ulong
  ending_phys_addr : ulong
deriving DecidableEq, Repr

/-- An extent as `kmalloc` returns it. Its fields are set before they are read. -/
def Extent.fresh (addr : Nat) : Extent := ⟨addr, [], 0, 0, 0⟩

/-- Create an extent with exactly one page. -/
def extent_init (ex : Extent) (pte : ulong) : Kern (Int × Extent) := do
  let ex := { ex with
    starting_phys_addr := pte, ending_phys_addr := pte, pgcount := 1, extent_pagelist := [] }
  match ← kmalloc .extent_page .GFP_KERNEL with
  | none => return (-ENOMEM, ex)
  | some first => return (0, { ex with extent_pagelist := list_add ⟨first, pte⟩ ex.extent_pagelist })

/-- Free an extent that has no pages. -/
def extent_destroy (ex : Extent) : Kern Int := do
  if ex.pgcount > 0 then
    return -1
  kfree .extent ex.addr
  return 0

def extent_add_adjacent (ex : Extent) (pte : ulong) : Kern (Int × Extent) := do
  if pte = ex.starting_phys_addr - 1 then
    match ← kmalloc .extent_page .GFP_KERNEL with
    | none => return (-ENOMEM, ex)
    | some new => return (0, { ex with
        starting_phys_addr := pte
        extent_pagelist := list_add ⟨new, pte⟩ ex.extent_pagelist
        pgcount := ex.pgcount + 1 })
  else if pte = ex.ending_phys_addr + 1 then
    match ← kmalloc .extent_page .GFP_KERNEL with
    | none => return (-ENOMEM, ex)
    | some new => return (0, { ex with
        ending_phys_addr := pte
        extent_pagelist := list_add_tail ⟨new, pte⟩ ex.extent_pagelist
        pgcount := ex.pgcount + 1 })
  else
    return (-1, ex)

def extent_pte_is_start_or_end (ex : Extent) (pte : ulong) : Bool :=
  pte = ex.ending_phys_addr || pte = ex.starting_phys_addr

def extent_pte_contains (ex : Extent) (pte : ulong) : Bool :=
  pte ≥ ex.starting_phys_addr && pte ≤ ex.ending_phys_addr

def extent_pte_contains_foreach (ex : Extent) (pte : ulong) : Bool :=
  ex.extent_pagelist.any (·.page = pte)

def extents_are_adjacent (ex1 ex2 : Extent) : Bool :=
  ex1.ending_phys_addr = ex2.starting_phys_addr - 1 ||
    ex2.ending_phys_addr = ex1.starting_phys_addr - 1

/-- The loop of `extent_split`: the node that holds `pte` and everything before it go to the right
list, and the node is removed from there. -/
def extent_split_loop (pte : ulong) (src_list right_list : List ExtentPage) :
    Kern (List ExtentPage × List ExtentPage) :=
  match src_list.find? (·.page = pte) with
  | none => return (src_list, right_list)
  | some curr_page => do
    let node := src_list.findIdx (·.page = pte)
    -- the initial part is what moves, so the right half gets the pages before the removed one
    let (cut, rest) := list_cut_position src_list node
    kfree .extent_page curr_page.addr
    return (rest, list_del node cut)

/-- Split an extent in two around `pte`, which is dropped: `src_ex` keeps the bounds on the left and
`new_right_half` gets those on the right. -/
def extent_split (src_ex : Extent) (pte : ulong) (new_right_half : Extent) :
    Kern (Int × Extent × Extent) := do
  if !extent_pte_contains src_ex pte then
    return (-1, src_ex, new_right_half)
  if extent_pte_is_start_or_end src_ex pte then
    return (-1, src_ex, new_right_half)
  let new_right_half := { new_right_half with
    pgcount := (src_ex.ending_phys_addr - pte).toNat
    starting_phys_addr := pte + 1
    ending_phys_addr := src_ex.ending_phys_addr
    extent_pagelist := [] }
  let (src_list, right_list) ←
    extent_split_loop pte src_ex.extent_pagelist new_right_half.extent_pagelist
  let new_right_half := { new_right_half with extent_pagelist := right_list }
  let src_ex := { src_ex with
    extent_pagelist := src_list
    pgcount := (pte - src_ex.starting_phys_addr).toNat
    ending_phys_addr := pte - 1 }
  return (0, src_ex, new_right_half)

/-- Move all pages of `from_ex` to `to_ex` and free `from_ex`. The loop that rotates the list counts its
rounds in an `int` up to the `long` `pgcount`; here it makes `pgcount` rounds. -/
def extent_merge (to_ex from_ex : Extent) : Kern (Int × Extent × Extent) := do
  if !extents_are_adjacent to_ex from_ex then
    return (-1, to_ex, from_ex)
  if to_ex.pgcount = 0 || from_ex.pgcount = 0 then
    return (-1, to_ex, from_ex)
  -- the loop meant to find the last page runs past it to the head, so the new pages go in front
  let curr_page := list_for_each_entry_end
  let spliced := list_splice from_ex.extent_pagelist curr_page to_ex.extent_pagelist
  let emptied := { from_ex with pgcount := 0 }
  if to_ex.ending_phys_addr = from_ex.starting_phys_addr - 1 then
    let _ ← extent_destroy emptied
    return (0, { to_ex with
      extent_pagelist := spliced
      pgcount := to_ex.pgcount + from_ex.pgcount
      ending_phys_addr := from_ex.ending_phys_addr }, emptied)
  else if from_ex.ending_phys_addr = to_ex.starting_phys_addr - 1 then
    let _ ← extent_destroy emptied
    return (0, { to_ex with
      extent_pagelist := list_rotate_left^[from_ex.pgcount.toNat] spliced
      pgcount := to_ex.pgcount + from_ex.pgcount
      starting_phys_addr := from_ex.starting_phys_addr }, emptied)
  else
    return (1, to_ex, from_ex)

/-- The loop of `extent_trim`. Its `break` stands after the `if`, so it looks at the first node only. -/
def extent_trim_loop (pte : ulong) : List ExtentPage → Kern (List ExtentPage)
  | [] => return []
  | curr_page :: rest => do
    if curr_page.page = pte then
      kfree .extent_page curr_page.addr
      return rest
    return curr_page :: rest

/-- Remove the first or the last page of an extent. -/
def extent_trim (ex : Extent) (pte : ulong) : Kern (Int × Extent) := do
  if !extent_pte_is_start_or_end ex pte then
    return (-1, ex)
  let ex :=
    if pte = ex.ending_phys_addr && ex.pgcount > 1 then
      { ex with ending_phys_addr := ex.ending_phys_addr - 1 }
    else if pte = ex.starting_phys_addr && ex.pgcount > 1 then
      { ex with starting_phys_addr := ex.starting_phys_addr + 1 }
    else ex
  let pagelist ← extent_trim_loop pte ex.extent_pagelist
  return (0, { ex with extent_pagelist := pagelist, pgcount := ex.pgcount - 1 })

end CS519.Extents
