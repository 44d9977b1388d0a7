import CS519.Ipc.Pipe

/-!
# Reader and writers stay aligned

The messages go through the pipe in the order in which the children took the semaphore. What the parent
has got in this round, what is in the pipe, and what the holder of the semaphore has yet to write make up
the messages of the rows not yet received, chunk by chunk (`Aligned.stream`). A read therefore asks for
the length of the chunk that comes next.
-/

namespace CS519.Ipc.Pipe
open CInt (INT_MAX)
open Function

/-- What the invariant knows beside the state: the rows in the order in which the semaphore was taken, who
holds it, and the chunks of the messages not yet received as a whole. -/
structure Ghost where
  order : List ℕ
  holder : Option ℕ
  got : List (List byte)
  queued : List (List byte)
  pending : List (List byte)

namespace Parent

/-- How many children there are. -/
def born (m : ℕ) : Parent → ℕ
  | fork i => i
  | _ => m

/-- How many rows were received as a whole. -/
def rounds (m : ℕ) : Parent → ℕ
  | fork _ => 0
  | round i => i
  | read i _ => i
  | done => m

/-- Where the parent is in its loops, when it has got `got` in this round. -/
def At (m : ℕ) (b : Buffers) (got : List (List byte)) : Parent → Prop
  | fork i => i ≤ m ∧ got = [] ∧ b.Sized m
  | round i => i ≤ m ∧ got = [] ∧ b.Sized m
  | read i todo =>
    i < m ∧ got.length ≤ (parent_reads m).length ∧ (parent_reads m).drop got.length = todo ∧
      ∃ before : Buffers, before.Sized m ∧ b = received m before got
  | done => got = []

end Parent

/-- Where a child is. -/
def Stage (m : ℕ) (A B : ℕ → int) (born : ℕ) (g : Ghost) (i : ℕ) (c : Child) : Prop :=
  if born ≤ i then c = .unborn
  else if g.holder = some i then c = .running (g.pending.map .write ++ [.semaphore_release])
  else if i ∈ g.order then c = .running [] ∨ c = .exited
  else c = .running (child_calls m A B i)

/-- The semaphore has one permit, or the holder does. -/
def Permit (s : Sys) (g : Ghost) : Prop :=
  match g.holder with
  | none => s.semaphore = 1 ∧ g.pending = []
  | some c => s.semaphore = 0 ∧ c ∈ g.order

/-- The rows that the parent received. -/
def rows (l : List Event) : List (int × List int) :=
  l.filterMap fun
    | .row number values => some (number, values)
    | .read .. => none

/-- A row as it should be received. -/
def computed_row (m : ℕ) (A B : ℕ → int) (i : ℕ) : int × List int :=
  (.ofNat 32 i, vector_mult m A B i)

structure Aligned (m : ℕ) (A B : ℕ → int) (s : Sys) (l : List Event) (g : Ghost) : Prop where
  nodup : g.order.Nodup
  forked : ∀ i ∈ g.order, i < s.parent.born m
  children : ∀ i, Stage m A B (s.parent.born m) g i (s.child i)
  permit : Permit s g
  rounds : s.parent.rounds m ≤ g.order.length
  stream : g.got ++ g.queued ++ g.pending =
    (g.order.drop (s.parent.rounds m)).flatMap (message m A B)
  pipe : s.pipe = g.queued.flatten
  parent : s.parent.At m s.buffers g.got
  full : ∀ asked got, .read asked got ∈ l → got = asked
  received : rows l = (g.order.take (s.parent.rounds m)).map (computed_row m A B)
  copied : ∀ i ∈ g.order.take (s.parent.rounds m), ∀ j < m,
    s.C (i * m + j) = (vector_mult m A B i).getD j 0

section Steps
variable {cap m : ℕ} {A B : ℕ → int} {s : Sys} {l : List Event} {g : Ghost}

/-- When the parent comes to its loops nothing has been sent. -/
lemma aligned_start {b : Buffers} (sized : b.Sized m) (C : ℕ → int) :
    Aligned m A B (pipe_start b C) [] ⟨[], none, [], [], []⟩ where
  nodup := .nil
  forked := by simp
  children i := by simp [Stage, pipe_start, Parent.born]
  permit := ⟨rfl, rfl⟩
  rounds := le_rfl
  stream := rfl
  pipe := rfl
  parent := ⟨Nat.zero_le m, rfl, sized⟩
  full := by simp
  received := rfl
  copied := by simp [pipe_start, Parent.rounds]

/-! ## Children -/

/-- A step of one child leaves the others where they are. -/
lemma stage_update {born born' : ℕ} {g' : Ghost} {child : ℕ → Child} {i : ℕ} {c : Child}
    (stages : ∀ j, Stage m A B born g j (child j)) (own : Stage m A B born' g' i c)
    (others : ∀ j, j ≠ i → ∀ d, Stage m A B born g j d → Stage m A B born' g' j d) (j : ℕ) :
    Stage m A B born' g' j (update child i c j) := by
  by_cases eq : j = i
  · subst eq
    rwa [update_self]
  · rw [update_of_ne eq]
    exact others j eq _ (stages j)

/-- What calls a child may have before it: what is left of its message, none, or all. -/
lemma Aligned.calls (al : Aligned m A B s l g) {i : ℕ} {calls : List Call}
    (e : s.child i = .running calls) :
    i < s.parent.born m ∧
      (g.holder = some i ∧ calls = g.pending.map .write ++ [.semaphore_release] ∨
        g.holder ≠ some i ∧ i ∈ g.order ∧ calls = [] ∨
        g.holder ≠ some i ∧ i ∉ g.order ∧ calls = child_calls m A B i) := by
  have stage := al.children i
  rw [e, Stage] at stage
  split_ifs at stage with h₁ h₂ h₃
  · exact ⟨not_le.mp h₁, .inl ⟨h₂, Child.running.inj stage⟩⟩
  · exact ⟨not_le.mp h₁, .inr (.inl ⟨h₂, h₃, by simpa using stage⟩)⟩
  · exact ⟨not_le.mp h₁, .inr (.inr ⟨h₂, h₃, Child.running.inj stage⟩)⟩

/-- A child takes the free semaphore: its message comes next in the stream. -/
lemma Aligned.reserve (al : Aligned m A B s l g) {i : ℕ} {rest : List Call}
    (e : s.child i = .running (.semaphore_reserve :: rest)) (free : s.semaphore ≠ 0) :
    Aligned m A B
      { s with semaphore := s.semaphore - 1, child := update s.child i (.running rest) } l
      { g with order := g.order ++ [i], holder := some i, pending := message m A B i } := by
  obtain ⟨none, one, empty⟩ : g.holder = none ∧ s.semaphore = 1 ∧ g.pending = [] := by
    have permit := al.permit
    rw [Permit] at permit
    split at permit
    case h_1 none => exact ⟨none, permit⟩
    case h_2 => exact absurd permit.1 free
  obtain ⟨lt, ⟨held, _⟩ | ⟨_, _, nil⟩ | ⟨_, new, calls⟩⟩ := al.calls e
  · simp [none] at held
  · simp at nil
  have tail : rest = (message m A B i).map .write ++ [.semaphore_release] :=
    (List.cons.inj calls).2
  refine { nodup := ?_, forked := ?_, children := ?_, permit := ?_, rounds := ?_, stream := ?_,
           pipe := al.pipe, parent := al.parent, full := al.full, received := ?_, copied := ?_ }
  · exact List.nodup_append.mpr ⟨al.nodup, List.nodup_singleton i, by grind⟩
  · intro j hj
    cases List.mem_append.mp hj with
    | inl h => exact al.forked j h
    | inr h => exact (List.mem_singleton.mp h) ▸ lt
  · refine stage_update al.children (by simp [Stage, lt, tail]) fun j eq d stage => ?_
    simpa [Stage, eq, Ne.symm eq, none] using stage
  · exact ⟨by simp [one], by simp⟩
  · simpa using al.rounds.trans (Nat.le_succ _)
  · have stream := al.stream
    rw [empty, List.append_nil] at stream
    rw [List.drop_append_of_le_length al.rounds, List.flatMap_append, ← stream,
      List.flatMap_singleton]
  · rw [List.take_append_of_le_length al.rounds]
    exact al.received
  · rw [List.take_append_of_le_length al.rounds]
    exact al.copied

/-- The holder writes the next chunk of its message. -/
lemma Aligned.write (al : Aligned m A B s l g) {i : ℕ} {data : List byte} {rest : List Call}
    (e : s.child i = .running (.write data :: rest)) :
    ∃ g', Aligned m A B
      { s with pipe := s.pipe ++ data, child := update s.child i (.running rest) } l g' := by
  obtain ⟨lt, ⟨held, calls⟩ | ⟨_, _, nil⟩ | ⟨_, _, calls⟩⟩ := al.calls e
  rotate_left
  · simp at nil
  · simp [child_calls] at calls
  obtain ⟨pending, chunk, tail⟩ : ∃ pending, g.pending = data :: pending ∧
      rest = pending.map .write ++ [.semaphore_release] := by
    cases h : g.pending with
    | nil => simp [h] at calls
    | cons d pending =>
      simp only [h, List.map_cons, List.cons_append, List.cons.injEq, Call.write.injEq] at calls
      exact ⟨pending, by rw [calls.1], calls.2⟩
  refine ⟨{ g with queued := g.queued ++ [data], pending := pending },
    { al with children := ?_, permit := ?_, stream := ?_, pipe := ?_ }⟩
  · refine stage_update al.children (by simp [Stage, lt, tail, held]) fun j eq d stage => ?_
    simpa [Stage, Ne.symm eq, held] using stage
  · have permit := al.permit
    rw [Permit, held] at permit
    simpa [Permit, held] using permit
  · rw [← al.stream, chunk]
    simp
  · simp [al.pipe]

/-- The holder gives the semaphore back. -/
lemma Aligned.release (al : Aligned m A B s l g) {i : ℕ} {rest : List Call}
    (e : s.child i = .running (.semaphore_release :: rest)) :
    Aligned m A B
      { s with semaphore := s.semaphore + 1, child := update s.child i (.running rest) } l
      { g with holder := none } := by
  obtain ⟨lt, ⟨held, calls⟩ | ⟨_, _, nil⟩ | ⟨_, _, calls⟩⟩ := al.calls e
  rotate_left
  · simp at nil
  · simp [child_calls] at calls
  obtain ⟨empty, tail⟩ : g.pending = [] ∧ rest = [] := by
    cases h : g.pending with
    | nil => simpa [h] using calls
    | cons d pending => simp [h] at calls
  obtain ⟨zero, mem⟩ : s.semaphore = 0 ∧ i ∈ g.order := by
    have permit := al.permit
    rwa [Permit, held] at permit
  refine { al with children := ?_, permit := ⟨by simp [zero], empty⟩ }
  refine stage_update al.children (by simp [Stage, lt, tail, mem]) fun j eq d stage => ?_
  simpa [Stage, Ne.symm eq, held] using stage

/-- A child that has made all its calls exits. -/
lemma Aligned.exit (al : Aligned m A B s l g) {i : ℕ} (e : s.child i = .running []) :
    Aligned m A B { s with child := update s.child i .exited } l g := by
  obtain ⟨lt, ⟨_, calls⟩ | ⟨other, mem, _⟩ | ⟨_, _, calls⟩⟩ := al.calls e
  · simp at calls
  · exact { al with
      children := stage_update al.children (by simp [Stage, lt, mem, other]) fun _ _ _ stage => stage }
  · simp [child_calls] at calls

/-- A step of a child keeps the invariant. -/
lemma Aligned.child (al : Aligned m A B s l g) (i : ℕ) :
    ∃ g', Aligned m A B ((child_step? cap s i).getD s) l g' := by
  cases e : s.child i with
  | unborn => exact ⟨g, by simpa [child_step?, e] using al⟩
  | exited => exact ⟨g, by simpa [child_step?, e] using al⟩
  | running calls =>
    cases calls with
    | nil => exact ⟨g, by simpa [child_step?, e] using al.exit e⟩
    | cons call rest =>
      rw [child_step?, e]
      cases call with
      | semaphore_reserve =>
        by_cases free : s.semaphore = 0
        · exact ⟨g, by simpa [free] using al⟩
        · exact ⟨_, by simpa [free] using al.reserve e free⟩
      | write data =>
        by_cases room : s.pipe.length + data.length ≤ cap
        · obtain ⟨g', al'⟩ := al.write e
          exact ⟨g', by simpa [room] using al'⟩
        · exact ⟨g, by simpa [room] using al⟩
      | semaphore_release => exact ⟨_, by simpa using al.release e⟩

/-! ## The parent -/

/-- A fork adds a child that waits for the semaphore. -/
lemma Aligned.fork (al : Aligned m A B s l g) {i : ℕ} (e : s.parent = .fork i) (lt : i < m) :
    Aligned m A B
      { s with child := update s.child i (.running (child_calls m A B i)), parent := .fork (i + 1) } l g := by
  obtain ⟨_, none_got, sized⟩ : i ≤ m ∧ g.got = [] ∧ s.buffers.Sized m := by
    have parent := al.parent
    rwa [e] at parent
  have rounds : s.parent.rounds m = 0 := by rw [e, Parent.rounds]
  have born : s.parent.born m = i := by rw [e, Parent.born]
  have received := al.received
  have stream := al.stream
  rw [rounds] at received stream
  refine { nodup := al.nodup, forked := ?_, children := ?_, permit := al.permit,
           rounds := Nat.zero_le _, stream := stream, pipe := al.pipe,
           parent := ⟨lt, none_got, sized⟩, full := al.full, received := received,
           copied := by simp [Parent.rounds] }
  · intro j hj
    exact Nat.lt_succ_of_lt (born ▸ al.forked j hj)
  · have new : i ∉ g.order := fun h => absurd (al.forked i h) (by simp [born])
    have free : g.holder ≠ some i := by
      intro held
      have permit := al.permit
      rw [Permit, held] at permit
      exact new permit.2
    refine stage_update al.children (by simp [Stage, Parent.born, new, free]) fun j eq d stage => ?_
    have same : i + 1 ≤ j ↔ i ≤ j := by omega
    rw [born] at stage
    simpa [Stage, Parent.born, same] using stage

/-- Where the parent passes from one loop to the next, nothing happens to the data. -/
lemma Aligned.pass (al : Aligned m A B s l g) {p : Parent} (born : p.born m = s.parent.born m)
    (rounds : p.rounds m = s.parent.rounds m) (at_p : p.At m s.buffers g.got) :
    Aligned m A B { s with parent := p } l g :=
  { al with
    forked := born ▸ al.forked, children := born ▸ al.children, rounds := rounds ▸ al.rounds
    stream := rounds ▸ al.stream, received := rounds ▸ al.received, copied := rounds ▸ al.copied
    parent := at_p }

/-- The parent has read as many chunks as it has got, and the buffer holds them. -/
lemma Aligned.reading (al : Aligned m A B s l g) {i : ℕ} {todo : List Read} (e : s.parent = .read i todo) :
    i < m ∧ g.got.length ≤ (parent_reads m).length ∧ (parent_reads m).drop g.got.length = todo ∧
      ∃ before : Buffers, before.Sized m ∧ s.buffers = Pipe.received m before g.got := by
  have parent := al.parent
  rwa [e] at parent

/-- There are reads left in a round exactly if the parent has not got as much as it asks for. -/
lemma Aligned.more (al : Aligned m A B s l g) {i : ℕ} {r : Read} {todo : List Read}
    (e : s.parent = .read i (r :: todo)) : g.got.length < (parent_reads m).length := by
  obtain ⟨_, _, left, _⟩ := al.reading e
  rw [← List.drop_eq_nil_iff.not.trans not_le, left]
  exact List.cons_ne_nil r todo

/-- What the next read of a round asks for is the length of the next chunk. -/
lemma Aligned.next_chunk (int_m : m ≤ INT_MAX) (pos : 0 < m) (al : Aligned m A B s l g) {i : ℕ} {r : Read}
    {todo : List Read} (e : s.parent = .read i (r :: todo)) {data : List byte} {queued : List (List byte)}
    (next : g.queued = data :: queued) : data.length = r.count := by
  obtain ⟨_, _, left, _⟩ := al.reading e
  have stream := al.stream
  rw [next, e, Parent.rounds] at stream
  cases h : g.order.drop i with
  | nil => simp [h] at stream
  | cons row later =>
    rw [h, List.flatMap_cons] at stream
    have at_got : (parent_reads m)[g.got.length]? = some r := by
      rw [← List.head?_drop, left, List.head?_cons]
    have lt : g.got.length < (message m A B row).length := by
      rw [length_message]
      exact al.more e
    have chunk : (message m A B row)[g.got.length]? = some data := by
      rw [← List.getElem?_append_left lt, ← stream]
      simp
    have lengths := congrArg (·[g.got.length]?) (message_lengths int_m pos A B row)
    simpa [chunk, at_got] using lengths

/-- A read gets the next chunk. -/
lemma Aligned.read (int_m : m ≤ INT_MAX) (pos : 0 < m) (al : Aligned m A B s l g) {i : ℕ} {r : Read}
    {todo : List Read} (e : s.parent = .read i (r :: todo)) (available : s.pipe ≠ []) :
    ∃ g', Aligned m A B
      { s with
        pipe := s.pipe.drop r.count
        buffers := receive s.buffers r (s.pipe.take r.count)
        parent := .read i todo }
      (l ++ [.read r.count (s.pipe.take r.count).length]) g' := by
  obtain ⟨lt, le, left, before, sized, bufs⟩ := al.reading e
  obtain ⟨data, queued, next⟩ : ∃ data queued, g.queued = data :: queued := by
    refine List.exists_cons_of_ne_nil fun h => available ?_
    rw [al.pipe, h, List.flatten_nil]
  have asked := al.next_chunk int_m pos e next
  have pipe : s.pipe = data ++ queued.flatten := by rw [al.pipe, next, List.flatten_cons]
  have got : s.pipe.take r.count = data := by rw [pipe, ← asked, List.take_left]
  have rest : s.pipe.drop r.count = queued.flatten := by rw [pipe, ← asked, List.drop_left]
  have born : (Parent.read i todo).born m = s.parent.born m := by rw [e]; rfl
  have rounds : (Parent.read i todo).rounds m = s.parent.rounds m := by rw [e]; rfl
  rw [got, rest]
  refine ⟨{ g with got := g.got ++ [data], queued := queued },
    { nodup := al.nodup, forked := born ▸ al.forked, children := born ▸ al.children,
      permit := al.permit, rounds := rounds ▸ al.rounds, stream := ?_, pipe := rfl,
      parent := ?_, full := ?_, received := ?_, copied := rounds ▸ al.copied }⟩
  · rw [rounds, ← al.stream, next]
    simp
  · refine ⟨lt, ?_, ?_, before, sized, ?_⟩
    · simpa using al.more e
    · rw [List.length_append, List.length_singleton, ← List.drop_drop, left, List.drop_one, List.tail_cons]
    · rw [received_snoc left, bufs]
  · intro a b mem
    cases List.mem_append.mp mem with
    | inl h => exact al.full a b h
    | inr h =>
      obtain ⟨rfl, rfl⟩ := Event.read.inj (List.mem_singleton.mp h)
      exact asked
  · rw [rounds, ← al.received]
    simp [rows]

/-- After the last read of a round the parent has got the message of the next row in the order of the
semaphore, and no more. -/
lemma Aligned.whole_message (int_m : m ≤ INT_MAX) (pos : 0 < m) (al : Aligned m A B s l g) {i : ℕ}
    (e : s.parent = .read i []) :
    ∃ row later, g.order.drop i = row :: later ∧
      g.queued ++ g.pending = later.flatMap (message m A B) ∧
        s.buffers = ⟨encode (.ofNat 32 row), row_bytes (vector_mult m A B row)⟩ := by
  obtain ⟨_, le, left, before, sized, bufs⟩ := al.reading e
  have size : g.got.length = (parent_reads m).length := le_antisymm le (List.drop_eq_nil_iff.mp left)
  have stream := al.stream
  rw [e, Parent.rounds] at stream
  obtain ⟨row, later, h⟩ : ∃ row later, g.order.drop i = row :: later := by
    refine List.exists_cons_of_ne_nil fun h => ?_
    rw [h, List.flatMap_nil, List.append_assoc] at stream
    have nil := (List.append_eq_nil_iff.mp stream).1
    simp [nil, parent_reads] at size
  rw [h, List.flatMap_cons, List.append_assoc] at stream
  obtain ⟨whole, rest⟩ := List.append_inj stream (size.trans length_message.symm)
  refine ⟨row, later, h, rest, ?_⟩
  rw [bufs, whole, received_message int_m pos sized]

/-- The end of a round: the buffers hold the next row in the order of the semaphore. -/
lemma Aligned.copy (int_m : m ≤ INT_MAX) (pos : 0 < m) (al : Aligned m A B s l g) {i : ℕ}
    (e : s.parent = .read i []) :
    ∃ g', Aligned m A B
      { s with
        C := copy_row m s.C (decode s.buffers.readI) (row_of_bytes m s.buffers.readAns)
        parent := .round (i + 1) }
      (l ++ [.row (decode s.buffers.readI) (row_of_bytes m s.buffers.readAns)]) g' := by
  have lt := (al.reading e).1
  obtain ⟨row, later, h, rest, bufs⟩ := al.whole_message int_m pos e
  have number : decode s.buffers.readI = .ofNat 32 row := by rw [bufs, decode_encode]
  have values : row_of_bytes m s.buffers.readAns = vector_mult m A B row := by
    have back := row_of_row_bytes (vector_mult m A B row)
    rw [length_vector_mult] at back
    rw [bufs, back]
  have born : (Parent.round (i + 1)).born m = s.parent.born m := by rw [e]; rfl
  have more : i < g.order.length := by
    rw [← List.drop_eq_nil_iff.not.trans not_le, h]
    simp
  have at_i : g.order[i]? = some row := by rw [← List.head?_drop, h, List.head?_cons]
  have taken : g.order.take (i + 1) = g.order.take i ++ [row] := by
    rw [List.take_add_one, at_i, Option.toList_some]
  have row_lt : row < m := by
    have lt := al.forked row (List.mem_of_getElem? at_i)
    rwa [e] at lt
  have to_nat : (BitVec.ofNat 32 row).toNat = row := by
    unfold INT_MAX at int_m
    rw [BitVec.toNat_ofNat, Nat.mod_eq_of_lt (by omega)]
  have received := al.received
  have copied := al.copied
  rw [e, Parent.rounds] at received copied
  rw [number, values]
  refine ⟨{ g with got := [] },
    { nodup := al.nodup, forked := born ▸ al.forked, children := born ▸ al.children,
      permit := al.permit, rounds := more, stream := ?_, pipe := al.pipe,
      parent := ⟨lt, rfl, ?_⟩, full := ?_, received := ?_, copied := ?_ }⟩
  · rw [Parent.rounds, ← List.drop_drop, h, List.drop_one, List.tail_cons, ← rest, List.nil_append]
  · rw [bufs]
    exact ⟨rfl, by simp⟩
  · intro a b mem
    cases List.mem_append.mp mem with
    | inl h => exact al.full a b h
    | inr h => simp at h
  · rw [Parent.rounds, taken, List.map_append, ← received]
    simp [rows, computed_row]
  · intro k hk j hj
    rw [Parent.rounds, taken, List.mem_append, List.mem_singleton] at hk
    simp only [copy_row_apply hj, to_nat]
    by_cases eq : k = row
    · rw [if_pos eq, eq]
    · rw [if_neg eq]
      exact copied k (hk.resolve_right eq) j hj

/-- A step of the parent keeps the invariant. -/
lemma Aligned.parent_step (int_m : m ≤ INT_MAX) (pos : 0 < m) (al : Aligned m A B s l g) :
    ∃ g', Aligned m A B ((parent_step? m A B s).getD s) (l ++ (pipe_log m s .parent).toList) g' := by
  have parent := al.parent
  unfold parent_step? pipe_log
  cases e : s.parent with
  | fork i =>
    rw [e] at parent
    simp only [Option.toList_none, List.append_nil]
    split
    case isTrue lt => exact ⟨g, al.fork e lt⟩
    case isFalse ge =>
      obtain rfl : i = m := le_antisymm parent.1 (not_lt.mp ge)
      exact ⟨g, al.pass (by rw [e]; rfl) (by rw [e]; rfl) ⟨Nat.zero_le _, parent.2⟩⟩
  | round i =>
    rw [e] at parent
    obtain ⟨le, empty, sized⟩ := parent
    simp only [Option.toList_none, List.append_nil]
    split
    case isTrue lt =>
      refine ⟨g, al.pass (by rw [e]; rfl) (by rw [e]; rfl) ⟨lt, ?_, ?_, s.buffers, sized, ?_⟩⟩
      · simp [empty]
      · simp [empty]
      · rw [empty, received_nil]
    case isFalse ge =>
      obtain rfl : i = m := le_antisymm le (not_lt.mp ge)
      exact ⟨g, al.pass (by rw [e]; rfl) (by rw [e]; rfl) empty⟩
  | read i todo =>
    cases todo with
    | nil => exact al.copy int_m pos e
    | cons r todo =>
      by_cases empty : s.pipe = []
      · exact ⟨g, by simpa [empty] using al⟩
      · simpa [empty] using al.read int_m pos e empty
  | done => exact ⟨g, by simpa using al⟩

/-- In every state of every run reader and writers are aligned. -/
theorem aligned_run (cap : ℕ) (A B : ℕ → int) (int_m : m ≤ INT_MAX) (pos : 0 < m) {b : Buffers}
    (sized : b.Sized m) (C : ℕ → int) (h : List Move) :
    ∃ g, Aligned m A B (run (pipe_step cap m A B) (pipe_start b C) h)
      (trace (pipe_step cap m A B) (pipe_log m) (pipe_start b C) h) g := by
  refine trace_invariant (I := fun s l => ∃ g, Aligned m A B s l g) ?_ ⟨_, aligned_start sized C⟩ h
  rintro s l mv ⟨g, al⟩
  cases mv with
  | parent => exact al.parent_step int_m pos
  | child i =>
    rw [pipe_log, Option.toList_none, List.append_nil]
    exact al.child i

end Steps

/-! ## The product -/

section Results
variable {cap m : ℕ} {A B : ℕ → int} {s : Sys} {l : List Event} {g : Ghost}

/-- The rows that took the semaphore are distinct rows of the matrix. -/
lemma Aligned.subperm (al : Aligned m A B s l g) (le : s.parent.born m ≤ m) :
    g.order.Subperm (List.range m) :=
  al.nodup.subperm fun _ mem => List.mem_range.mpr ((al.forked _ mem).trans_le le)

/-- No more children are born than there are rows. -/
lemma Aligned.born_le (al : Aligned m A B s l g) : s.parent.born m ≤ m := by
  have parent := al.parent
  cases e : s.parent with
  | fork i =>
    rw [e] at parent
    exact parent.1
  | _ => exact le_rfl

/-- However the processes interleave: every read returns what it asked for, the rows received so far are
rows as they should be, each once, and at the end all of them are, and `C` is the product. -/
theorem pipe_product (pos : 1 ≤ m) (int_m : m * m ≤ INT_MAX) (fits : product_fits m A B) {b : Buffers}
    (sized : b.Sized m) (C : ℕ → int) (h : List Move) :
    let step := pipe_step cap m A B
    let s := run step (pipe_start b C) h
    let l := trace step (pipe_log m) (pipe_start b C) h
    (∀ asked got, .read asked got ∈ l → got = asked) ∧
      (rows l).Subperm ((List.range m).map (computed_row m A B)) ∧
      (s.parent = .done →
        (rows l).Perm ((List.range m).map (computed_row m A B)) ∧
          matrix m s.C = matrix m A * matrix m B ∧ verify m A B s.C = 1) := by
  intro step s l
  have int_m' : m ≤ INT_MAX := (Nat.le_mul_self m).trans int_m
  obtain ⟨g, al⟩ := aligned_run cap A B int_m' pos sized C h
  have some := al.subperm al.born_le
  refine ⟨al.full, ?_, fun done => ?_⟩
  · rw [al.received]
    obtain ⟨order, perm, sub⟩ := (List.take_sublist _ _).subperm.trans some
    exact ⟨_, perm.map _, sub.map _⟩
  · have received := al.received
    have copied := al.copied
    have rounds := al.rounds
    rw [done, Parent.rounds] at received copied rounds
    have all : g.order.Perm (List.range m) := some.perm_of_length_le (by simpa using rounds)
    have len : g.order.length = m := by simpa using all.length_eq
    rw [List.take_of_length_le len.le] at received copied
    have computed := rows_computed_of_getD fun i hi j hj =>
      copied i (all.mem_iff.mpr (List.mem_range.mpr hi)) j hj
    rw [received]
    exact ⟨all.map _, product_of_rows fits computed, verify_iff.mpr computed⟩

/-- Two children: the second one takes the semaphore first, and the parent reads while it writes. -/
def two_rows : List Move :=
  [.parent, .parent, .parent, .parent, .child 1, .child 1, .parent, .child 0, .child 1, .child 1,
    .child 0, .child 0, .parent, .parent, .parent, .parent, .child 0, .parent, .parent, .parent]

/-- Two children of a product of two rows. -/
theorem pipe_product_two :
    let s := run (pipe_step 4096 2 one_to_four one_to_four) (pipe_start ⟨[0, 0, 0, 0], .replicate 8 0⟩ 0)
      two_rows
    matrix 2 s.C = matrix 2 one_to_four * matrix 2 one_to_four ∧
      verify 2 one_to_four one_to_four s.C = 1 :=
  ((pipe_product (by decide) (by decide) one_to_four_fits ⟨rfl, rfl⟩ 0 two_rows).2.2 (by decide)).2

/-- All chunks on their way can be written in one step, and none is empty. -/
lemma Aligned.chunks (int_m : m ≤ INT_MAX) (pos : 0 < m) (al : Aligned m A B s l g) :
    ∀ d ∈ g.got ++ g.queued ++ g.pending, 1 ≤ d.length ∧ d.length ≤ PIPE_BUF := by
  rw [al.stream]
  intro d mem
  obtain ⟨row, _, mem⟩ := List.mem_flatMap.mp mem
  exact message_chunk int_m pos mem

/-- With an empty pipe no chunk is under way. -/
lemma Aligned.none_queued (int_m : m ≤ INT_MAX) (pos : 0 < m) (al : Aligned m A B s l g)
    (empty : s.pipe = []) : g.queued = [] := by
  cases h : g.queued with
  | nil => rfl
  | cons d queued =>
    have size := (al.chunks int_m pos d (by simp [h])).1
    have flat := al.pipe
    rw [empty, h, List.flatten_cons] at flat
    rw [(List.append_eq_nil_iff.mp flat.symm).1] at size
    simp at size

/-- If the parent waits in a round and nothing is on its way, some child has not taken the semaphore. -/
lemma Aligned.waiting_child (al : Aligned m A B s l g) {i : ℕ} {r : Read} {todo : List Read}
    (e : s.parent = .read i (r :: todo)) (none_queued : g.queued = []) (none_pending : g.pending = []) :
    ∃ c < m, c ∉ g.order := by
  have stream := al.stream
  have lt := (al.reading e).1
  rw [none_queued, none_pending, List.append_nil, List.append_nil, e, Parent.rounds] at stream
  have all_received : g.order.drop i = [] := by
    by_contra more
    -- the parent would have got the whole message of the next row
    obtain ⟨row, later, h⟩ := List.exists_cons_of_ne_nil more
    have more := al.more e
    rw [h, List.flatMap_cons] at stream
    have size := congrArg List.length stream
    rw [List.length_append, length_message] at size
    omega
  by_contra all
  push Not at all
  have sub : (List.range m).Subperm g.order :=
    List.nodup_range.subperm fun c hc => all c (List.mem_range.mp hc)
  have le := sub.length_le
  rw [List.length_range] at le
  have short := List.drop_eq_nil_iff.mp all_received
  omega

/-- While the parent waits for a chunk, the holder of the semaphore can take a step; if it is free, a child
whose row is missing can take it. -/
lemma Aligned.child_can_step (int_m : m ≤ INT_MAX) (pos : 0 < m) (room : PIPE_BUF ≤ cap)
    (al : Aligned m A B s l g) {i : ℕ} {r : Read} {todo : List Read} (e : s.parent = .read i (r :: todo))
    (empty : s.pipe = []) : ∃ c, (child_step? cap s c).isSome := by
  have permit := al.permit
  cases held : g.holder with
  | some c =>
    rw [Permit, held] at permit
    have stage := al.children c
    rw [Stage, if_neg (not_le.mpr (al.forked c permit.2)), if_pos held] at stage
    refine ⟨c, ?_⟩
    cases h : g.pending with
    | nil => simp [child_step?, stage, h]
    | cons d pending =>
      have fits : d.length ≤ cap := (al.chunks int_m pos d (by simp [h])).2.trans room
      simp [child_step?, stage, h, empty, fits]
  | none =>
    rw [Permit, held] at permit
    obtain ⟨one, none_pending⟩ := permit
    obtain ⟨c, lt, new⟩ := al.waiting_child e (al.none_queued int_m pos empty) none_pending
    have born : s.parent.born m = m := by rw [e]; rfl
    have stage := al.children c
    rw [Stage, born, if_neg (not_le.mpr lt), if_neg (by simp [held]), if_neg new] at stage
    exact ⟨c, by simp [child_step?, stage, child_calls, one]⟩

/-- The processes cannot all wait: as long as the parent has rounds to do, some process can take a step. -/
theorem pipe_progress (pos : 1 ≤ m) (int_m : m ≤ INT_MAX) (room : PIPE_BUF ≤ cap) {b : Buffers}
    (sized : b.Sized m) (C : ℕ → int) (h : List Move) :
    let s := run (pipe_step cap m A B) (pipe_start b C) h
    s.parent ≠ .done → ∃ mv, (pipe_step? cap m A B s mv).isSome := by
  intro s waiting
  obtain ⟨g, al⟩ := aligned_run cap A B int_m pos sized C h
  cases e : s.parent with
  | fork i => exact ⟨.parent, by simp only [pipe_step?, parent_step?, e]; split <;> rfl⟩
  | round i => exact ⟨.parent, by simp [pipe_step?, parent_step?, e]⟩
  | read i todo =>
    cases todo with
    | nil => exact ⟨.parent, by simp [pipe_step?, parent_step?, e]⟩
    | cons r todo =>
      by_cases empty : s.pipe = []
      · obtain ⟨c, step⟩ := al.child_can_step int_m pos room e empty
        exact ⟨.child c, step⟩
      · exact ⟨.parent, by simp [pipe_step?, parent_step?, e, empty]⟩
  | done => exact absurd e waiting

/-- The parent waits for the first chunk. -/
theorem pipe_progress_empty :
    ∃ mv, (pipe_step? 4096 2 one_to_four one_to_four
      (run (pipe_step 4096 2 one_to_four one_to_four) (pipe_start ⟨[0, 0, 0, 0], .replicate 8 0⟩ 0)
        [.parent, .parent, .parent, .parent]) mv).isSome :=
  pipe_progress (by decide) (by decide) (by decide) ⟨rfl, rfl⟩ 0 [.parent, .parent, .parent, .parent]
    (by decide)

end Results

end CS519.Ipc.Pipe
