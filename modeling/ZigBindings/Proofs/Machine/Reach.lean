import ZigBindings.Proofs.Machine.Run
import ZigBindings.Proofs.Outcome

/-! What runs reach, and what they leave alone. A run may be ended by the allocator only; memory
that was taken before the run keeps its bytes unless the run was asked to write there. -/

namespace ZigBindings.Machine

/-- The computation ends with what is wanted, or the allocator has refused one of the requests, each
a size and an alignment, that it may be asked. -/
def Reaches {α : Type} (allocator : Allocator) (requests : Nat → Nat → Prop)
    (computation : Except Trap α) (wanted : α → Prop) : Prop :=
  match computation with
  | .ok a => wanted a
  | .error (.refused taken size align) => requests size align ∧ allocator.place taken size align = none
  | .error .stuck => False

namespace Reaches

variable {α β : Type} {allocator : Allocator} {requests more : Nat → Nat → Prop}

@[simp] theorem ok {a : α} {wanted : α → Prop} :
    Reaches allocator requests (.ok a) wanted ↔ wanted a := Iff.rfl

theorem bind {first : Except Trap α} {next : α → Except Trap β} {between : α → Prop}
    {wanted : β → Prop} (reached : Reaches allocator requests first between)
    (continued : ∀ a, between a → Reaches allocator requests (next a) wanted) :
    Reaches allocator requests (first >>= next) wanted := by
  cases first with
  | ok a => exact continued a reached
  | error trap =>
    cases trap with
    | refused taken size align => exact reached
    | stuck => exact reached.elim

theorem mono {computation : Except Trap α} {wanted weaker : α → Prop}
    (reached : Reaches allocator requests computation wanted) (weaken : ∀ a, wanted a → weaker a) :
    Reaches allocator requests computation weaker := by
  cases computation with
  | ok a => exact weaken a reached
  | error trap =>
    cases trap with
    | refused taken size align => exact reached
    | stuck => exact reached.elim

theorem widen {computation : Except Trap α} {wanted : α → Prop}
    (reached : Reaches allocator requests computation wanted)
    (wide : ∀ size align, requests size align → more size align) :
    Reaches allocator more computation wanted := by
  cases computation with
  | ok a => exact reached
  | error trap =>
    cases trap with
    | refused taken size align => exact reached.imp_left (wide size align)
    | stuck => exact reached.elim

end Reaches

/-- The address is one of those from `low` up to but not including `high`. -/
def Within (low high x : Nat) : Prop := low ≤ x ∧ x < high

theorem Within.widen {low high lower higher x : Nat} (within : Within low high x) (below : lower ≤ low)
    (above : high ≤ higher) : Within lower higher x :=
  ⟨below.trans within.1, within.2.trans_le above⟩

def Newly (before after : Store) (x : Nat) : Prop :=
  Covered after.taken x ∧ ¬ Covered before.taken x

/-- Nothing is given back, and no byte changes outside of what may be written and of what has been
handed out meanwhile. -/
structure Changes (writable : Nat → Prop) (before after : Store) : Prop where
  grows : ∀ x, Covered before.taken x → Covered after.taken x
  outside : ∀ x, ¬ writable x → ¬ Newly before after x → after.memory x = before.memory x

namespace Changes

variable {writable wider : Nat → Prop} {first second third : Store}

theorem refl : Changes writable first first := ⟨fun _ covered => covered, fun _ _ _ => rfl⟩

theorem keeps (changes : Changes writable first second) (x : Nat) (covered : Covered first.taken x)
    (outside : ¬ writable x) : second.memory x = first.memory x :=
  changes.outside x outside fun newly => newly.2 covered

theorem trans (left : Changes writable first second) (right : Changes writable second third) :
    Changes writable first third where
  grows x covered := right.grows x (left.grows x covered)
  outside x outside old := by
    have later : ¬ Newly second third x := fun newly =>
      old ⟨newly.1, fun covered => newly.2 (left.grows x covered)⟩
    have earlier : ¬ Newly first second x := fun newly => old ⟨right.grows x newly.1, newly.2⟩
    exact (right.outside x outside later).trans (left.outside x outside earlier)

theorem mono (changes : Changes writable first second) (wide : ∀ x, writable x → wider x) :
    Changes wider first second where
  grows := changes.grows
  outside x outside old := changes.outside x (fun inside => outside (wide x inside)) old

end Changes

/-- A statement about memory that depends only on the bytes of a footprint. -/
def Kept (footprint : Nat → Prop) (m : Memory) (holds : Memory → Prop) : Prop :=
  ∀ other : Memory, (∀ x, footprint x → other x = m x) → holds other

namespace Kept

variable {footprint wider : Nat → Prop} {m other : Memory} {holds : Memory → Prop}

theorem here (kept : Kept footprint m holds) : holds m := kept m fun _ _ => rfl

theorem after (kept : Kept footprint m holds) (same : ∀ x, footprint x → other x = m x) :
    Kept footprint other holds := fun last lasts =>
  kept last fun x inside => (lasts x inside).trans (same x inside)

theorem mono (kept : Kept footprint m holds) (wide : ∀ x, footprint x → wider x) :
    Kept wider m holds := fun last lasts => kept last fun x inside => lasts x (wide x inside)

theorem and {other : Nat → Prop} {also : Memory → Prop} (left : Kept footprint m holds)
    (right : Kept other m also) :
    Kept (fun x => footprint x ∨ other x) m fun m => holds m ∧ also m := fun last lasts =>
  ⟨left last fun x inside => lasts x (.inl inside), right last fun x inside => lasts x (.inr inside)⟩

theorem imp {weaker : Memory → Prop} (kept : Kept footprint m holds)
    (weaken : ∀ m, holds m → weaker m) : Kept footprint m weaker := fun last lasts =>
  weaken last (kept last lasts)

theorem load {address size bits : Nat} (loaded : m.load address size = bits) :
    Kept (Within address (address + size)) m fun m => m.load address size = bits :=
  fun _ same => (Memory.load_congr fun x low high => same x ⟨low, high⟩).trans loaded

end Kept

/-- What a run stored or took is still there after a later one that writes elsewhere. -/
theorem Kept.later {first second third : Store} {written writable : Nat → Prop}
    {holds : Memory → Prop}
    (kept : Kept (fun x => written x ∨ Newly first second x) second.memory holds)
    (grows : ∀ x, Covered first.taken x → Covered second.taken x)
    (inside : ∀ x, written x → Covered first.taken x) (changes : Changes writable second third)
    (apart : ∀ x, written x → ¬ writable x) (old : ∀ x, writable x → Covered first.taken x) :
    Kept (fun x => written x ∨ Newly first third x) third.memory holds := by
  have same : ∀ x, written x ∨ Newly first second x → third.memory x = second.memory x := by
    intro x member
    rcases member with member | member
    · exact changes.keeps x (grows x (inside x member)) (apart x member)
    · exact changes.keeps x member.1 fun overwritten => member.2 (old x overwritten)
  refine (kept.after same).mono fun x member => ?_
  rcases member with member | member
  · exact .inl member
  · exact .inr ⟨changes.grows x member.1, member.2⟩

theorem Kept.taken_later {first second third : Store} {writable : Nat → Prop}
    {holds : Memory → Prop} (kept : Kept (Newly first second) second.memory holds)
    (changes : Changes writable second third) (old : ∀ x, writable x → Covered first.taken x) :
    Kept (Newly first third) third.memory holds := by
  refine (kept.after fun x newly => ?_).mono fun x newly => ⟨changes.grows x newly.1, newly.2⟩
  exact changes.keeps x newly.1 fun overwritten => newly.2 (old x overwritten)

theorem Kept.earlier {first second third : Store} {written : Nat → Prop} {holds : Memory → Prop}
    (kept : Kept (fun x => written x ∨ Newly second third x) third.memory holds)
    (grows : ∀ x, Covered first.taken x → Covered second.taken x) :
    Kept (fun x => written x ∨ Newly first third x) third.memory holds :=
  kept.mono fun x member => member.imp id fun newly =>
    ⟨newly.1, fun covered => newly.2 (grows x covered)⟩

theorem Kept.taken_earlier {first second third : Store} {holds : Memory → Prop}
    (kept : Kept (Newly second third) third.memory holds)
    (grows : ∀ x, Covered first.taken x → Covered second.taken x) :
    Kept (Newly first third) third.memory holds :=
  kept.mono fun x newly => ⟨newly.1, fun covered => newly.2 (grows x covered)⟩

/-- A run has seen to it that a statement holds, by writing to a footprint and to memory that was
taken meanwhile; the statement depends on nothing else. -/
structure Stored (written : Nat → Prop) (holds : Memory → Prop) (before after : Store) : Prop where
  changes : Changes written before after
  kept : Kept (fun x => written x ∨ Newly before after x) after.memory holds

namespace Stored

variable {written wider others : Nat → Prop} {holds weaker also : Memory → Prop}
  {first second third : Store}

theorem refl (always : ∀ m, holds m) : Stored written holds first first :=
  ⟨.refl, fun m _ => always m⟩

theorem mono (stored : Stored written holds first second) (wide : ∀ x, written x → wider x) :
    Stored wider holds first second :=
  ⟨stored.changes.mono wide, stored.kept.mono fun x member => member.imp_left (wide x)⟩

theorem imp (stored : Stored written holds first second) (weaken : ∀ m, holds m → weaker m) :
    Stored written weaker first second :=
  ⟨stored.changes, stored.kept.imp weaken⟩

theorem trans (left : Stored written holds first second) (right : Stored others also second third)
    (inside : ∀ x, written x → Covered first.taken x)
    (old : ∀ x, others x → Covered first.taken x) (apart : ∀ x, written x → ¬ others x) :
    Stored (fun x => written x ∨ others x) (fun m => holds m ∧ also m) first third where
  changes := (left.changes.mono fun _ => .inl).trans (right.changes.mono fun _ => .inr)
  kept := by
    have stays := Kept.later left.kept left.changes.grows inside right.changes apart old
    refine (stays.and (right.kept.earlier left.changes.grows)).mono fun x member => ?_
    rcases member with (here | newly) | there | newly
    · exact .inl (.inl here)
    · exact .inr newly
    · exact .inl (.inr there)
    · exact .inr newly

end Stored

theorem covered_cons {region : Region} {taken : List Region} {x : Nat} :
    Covered (region :: taken) x ↔ region.Has x ∨ Covered taken x := by
  simp [Covered]

/-- Memory that the allocator hands out lies in the address space and held nothing before. -/
theorem Store.allocate_reaches (allocator : Allocator) {requests : Nat → Nat → Prop} {size align : Nat}
    (asked : requests size align) (st : Store) :
    Reaches allocator requests (st.allocate allocator size align) fun given => ∃ start,
      given = (start, ⟨st.memory, ⟨start, start + size⟩ :: st.taken⟩) ∧
      start < 2 ^ 32 ∧ start + size ≤ 2 ^ 32 ∧
      ∀ x, Within start (start + size) x → ¬ Covered st.taken x := by
  unfold Store.allocate
  cases placed : allocator.place st.taken size align with
  | none => exact ⟨asked, placed⟩
  | some start =>
    obtain ⟨low, high⟩ := allocator.inside placed
    exact ⟨start, rfl, low, high, fun x within => allocator.fresh placed x within.1 within.2⟩

/-- What is stored in memory taken just now lies in new memory, and changes nothing that was there
before. -/
theorem Stored.of_allocated {st after : Store} {start size : Nat} {holds : Memory → Prop}
    (fresh : ∀ x, Within start (start + size) x → ¬ Covered st.taken x)
    (stored : Stored (Within start (start + size)) holds
      ⟨st.memory, ⟨start, start + size⟩ :: st.taken⟩ after) :
    Stored (fun _ => False) holds st after := by
  have new : ∀ x, Within start (start + size) x ∨
      Newly ⟨st.memory, ⟨start, start + size⟩ :: st.taken⟩ after x → Newly st after x := by
    intro x member
    rcases member with within | newly
    · exact ⟨stored.changes.grows x (covered_cons.mpr (.inl within)), fresh x within⟩
    · exact ⟨newly.1, fun covered => newly.2 (covered_cons.mpr (.inr covered))⟩
  refine ⟨⟨fun x covered => stored.changes.grows x (covered_cons.mpr (.inr covered)), ?_⟩, ?_⟩
  · intro x _ old
    exact stored.changes.outside x (fun within => old (new x (.inl within)))
      fun newly => old (new x (.inr newly))
  · exact stored.kept.mono fun x member => .inr (new x member)

end ZigBindings.Machine
