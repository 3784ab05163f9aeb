import ZigBindings.Layout.Measure
import ZigBindings.Proofs.Layout.Rounding
import ZigBindings.Proofs.Outcome

/-! Offsets of fields: each field stands behind the one before it, and all of them stand inside the
whole. Only these inequalities matter to the values that are written there. -/

namespace ZigBindings.Layout

/-- Fields at these offsets follow each other from `start` on and end at `stop` at the latest. -/
def Placed (start : Nat) : List Extent → List Nat → Nat → Prop
  | [], [], stop => start ≤ stop
  | field :: fields, offset :: offsets, stop =>
    start ≤ offset ∧ Placed (offset + field.size) fields offsets stop
  | _, _, _ => False

theorem Placed.le {start stop : Nat} {fields : List Extent} {offsets : List Nat}
    (placed : Placed start fields offsets stop) : start ≤ stop := by
  induction fields generalizing start offsets with
  | nil =>
    cases offsets with
    | nil => exact placed
    | cons offset offsets => exact placed.elim
  | cons field fields ih =>
    cases offsets with
    | nil => exact placed.elim
    | cons offset offsets =>
      have rest := ih placed.2
      have first := placed.1
      omega

theorem Placed.length {start stop : Nat} {fields : List Extent} {offsets : List Nat}
    (placed : Placed start fields offsets stop) : offsets.length = fields.length := by
  induction fields generalizing start offsets with
  | nil =>
    cases offsets with
    | nil => rfl
    | cons offset offsets => exact placed.elim
  | cons field fields ih =>
    cases offsets with
    | nil => exact placed.elim
    | cons offset offsets => simp [ih placed.2]

theorem Placed.mono {start stop limit : Nat} {fields : List Extent} {offsets : List Nat}
    (placed : Placed start fields offsets stop) (bound : stop ≤ limit) :
    Placed start fields offsets limit := by
  induction fields generalizing start offsets with
  | nil =>
    cases offsets with
    | nil => exact le_trans placed bound
    | cons offset offsets => exact placed.elim
  | cons field fields ih =>
    cases offsets with
    | nil => exact placed.elim
    | cons offset offsets => exact ⟨placed.1, ih placed.2⟩

theorem place_length {start stop : Nat} {fields : List Extent} {offsets : List Nat}
    (done : place start fields = .ok (offsets, stop)) : offsets.length = fields.length := by
  induction fields generalizing start offsets with
  | nil =>
    cases done
    rfl
  | cons field fields ih =>
    simp only [place] at done
    obtain ⟨offset, -, done⟩ := bind_eq_ok.mp done
    obtain ⟨⟨others, last⟩, placed, done⟩ := bind_eq_ok.mp done
    cases done
    simp [ih placed]

theorem primitiveExtent_alignable (p : Primitive) : Alignable (primitiveExtent p).align := by
  cases p
  case bool | s8 | u8 => exact ⟨0, by omega, rfl⟩
  case s16 | u16 => exact ⟨1, by omega, rfl⟩
  case s32 | u32 | f32 | char | string => exact ⟨2, by omega, rfl⟩
  case s64 | u64 | f64 => exact ⟨3, by omega, rfl⟩

theorem discriminantSize_alignable (count : Nat) : Alignable (discriminantSize count) := by
  unfold discriminantSize
  split
  · exact ⟨0, by omega, rfl⟩
  · split
    · exact ⟨1, by omega, rfl⟩
    · exact ⟨2, by omega, rfl⟩

theorem flagsExtent_alignable (count : Nat) : Alignable (flagsExtent count).align := by
  unfold flagsExtent
  split
  · exact .one
  · split
    · exact ⟨1, by omega, rfl⟩
    · exact ⟨2, by omega, rfl⟩

theorem maxAlign_alignable {fields : List Extent}
    (aligned : ∀ field ∈ fields, Alignable field.align) : Alignable (maxAlign fields) := by
  have folded : ∀ (aligns : List Nat) (start : Nat), Alignable start →
      (∀ align ∈ aligns, Alignable align) → Alignable (aligns.foldl max start) := by
    intro aligns
    induction aligns with
    | nil => intro start first _; exact first
    | cons align aligns ih =>
      intro start first each
      exact ih _ (first.max (each align (by simp))) fun other member => each other (by simp [member])
  apply folded _ _ Alignable.one
  intro align member
  obtain ⟨field, found, rfl⟩ := List.mem_map.mp member
  exact aligned field found

theorem place_placed {start stop : Nat} {fields : List Extent} {offsets : List Nat}
    (aligned : ∀ field ∈ fields, Alignable field.align)
    (done : place start fields = .ok (offsets, stop)) (bound : stop < 2 ^ 50) :
    Placed start fields offsets stop := by
  induction fields generalizing start offsets with
  | nil =>
    cases done
    exact le_refl _
  | cons field fields ih =>
    simp only [place] at done
    obtain ⟨offset, rounded, done⟩ := bind_eq_ok.mp done
    obtain ⟨⟨others, last⟩, placed, done⟩ := bind_eq_ok.mp done
    cases done
    have rest := ih (fun other member => aligned other (by simp [member])) placed
    have inside := rest.le
    exact ⟨alignUp_le (aligned field (by simp)) rounded (by omega), rest⟩

theorem recordExtent_alignable {fields : List Extent} {whole : Extent}
    (aligned : ∀ field ∈ fields, Alignable field.align)
    (measured : recordExtent fields = .ok whole) : Alignable whole.align := by
  cases fields with
  | nil =>
    cases measured
    exact .one
  | cons field fields =>
    simp only [recordExtent, List.isEmpty_cons, Bool.false_eq_true, if_false] at measured
    obtain ⟨⟨offsets, stop⟩, -, measured⟩ := bind_eq_ok.mp measured
    obtain ⟨size, -, measured⟩ := bind_eq_ok.mp measured
    cases measured
    exact maxAlign_alignable aligned

theorem recordExtent_places {fields : List Extent} {whole : Extent}
    (measured : recordExtent fields = .ok whole) :
    ∃ offsets stop, place 0 fields = .ok (offsets, stop) := by
  cases fields with
  | nil => exact ⟨[], 0, rfl⟩
  | cons field fields =>
    simp only [recordExtent, List.isEmpty_cons, Bool.false_eq_true, if_false] at measured
    obtain ⟨⟨offsets, stop⟩, done, -⟩ := bind_eq_ok.mp measured
    exact ⟨offsets, stop, done⟩

theorem recordExtent_placed {fields : List Extent} {whole : Extent}
    (aligned : ∀ field ∈ fields, Alignable field.align)
    (measured : recordExtent fields = .ok whole) (bound : whole.size < 2 ^ 50)
    {offsets : List Nat} {stop : Nat} (done : place 0 fields = .ok (offsets, stop)) :
    Placed 0 fields offsets whole.size := by
  cases fields with
  | nil =>
    cases measured
    cases done
    exact le_refl 0
  | cons field fields =>
    simp only [recordExtent, List.isEmpty_cons, Bool.false_eq_true, if_false, done, ok_bind]
      at measured
    obtain ⟨size, rounded, measured⟩ := bind_eq_ok.mp measured
    cases measured
    have inside := alignUp_le (maxAlign_alignable aligned) rounded bound
    have placed := place_placed aligned done (by simp only at bound; omega)
    exact placed.mono inside

theorem sumExtent_alignable {count : Nat} {payloads : List Extent} {whole : Extent}
    (aligned : ∀ payload ∈ payloads, Alignable payload.align)
    (measured : sumExtent count payloads = .ok whole) : Alignable whole.align := by
  simp only [sumExtent] at measured
  obtain ⟨start, -, measured⟩ := bind_eq_ok.mp measured
  obtain ⟨size, -, measured⟩ := bind_eq_ok.mp measured
  cases measured
  exact (discriminantSize_alignable count).max (maxAlign_alignable aligned)

theorem sumExtent_starts {count : Nat} {payloads : List Extent} {whole : Extent}
    (measured : sumExtent count payloads = .ok whole) :
    ∃ start, payloadStart count payloads = .ok start := by
  simp only [sumExtent] at measured
  obtain ⟨start, placed, -⟩ := bind_eq_ok.mp measured
  exact ⟨start, placed⟩

theorem sumExtent_placed {count : Nat} {payloads : List Extent} {whole : Extent}
    (aligned : ∀ payload ∈ payloads, Alignable payload.align)
    (measured : sumExtent count payloads = .ok whole) (bound : whole.size < 2 ^ 50) {start : Nat}
    (placed : payloadStart count payloads = .ok start) :
    discriminantSize count ≤ start ∧ start + maxSize payloads ≤ whole.size := by
  simp only [sumExtent, placed, ok_bind] at measured
  obtain ⟨size, rounded, measured⟩ := bind_eq_ok.mp measured
  cases measured
  have aligns := maxAlign_alignable aligned
  have inside := alignUp_le ((discriminantSize_alignable count).max aligns) rounded bound
  exact ⟨alignUp_le aligns placed (by simp only at bound; omega), inside⟩

theorem measureWithin_alignable (a : Arena) (depth : Nat) (ty : Ty) :
    Ensures (measureWithin a depth ty) fun extent => Alignable extent.align := by
  have record {extents : List Extent} (each : ∀ extent ∈ extents, Alignable extent.align) :
      Ensures (recordExtent extents) fun extent => Alignable extent.align := fun _ =>
    recordExtent_alignable each
  have sum {extents : List Extent} (count : Nat) (each : ∀ extent ∈ extents, Alignable extent.align) :
      Ensures (sumExtent count extents) fun extent => Alignable extent.align := fun _ =>
    sumExtent_alignable each
  induction depth generalizing ty with
  | zero =>
    cases ty with
    | prim p => exact .of_ok (primitiveExtent_alignable p)
    | ref id => exact .throw _
  | succ depth ih =>
    cases ty with
    | prim p => exact .of_ok (primitiveExtent_alignable p)
    | ref id =>
      rw [measureWithin]
      refine .bind_any fun kind => ?_
      cases kind with
      | record fields => exact .bind (.mapM_all fun field _ => ih field.2) fun extents each => record each
      | tuple elements => exact .bind (.mapM_all fun ty _ => ih ty) fun extents each => record each
      | variant cases => exact .bind (.mapM_all fun ty _ => ih ty) fun extents each => sum _ each
      | enumeration cases => exact sum _ (by simp)
      | option payload => exact .bind (ih payload) fun extent aligned => sum _ (by simpa using aligned)
      | result ok err => exact .bind (.mapM_all fun ty _ => ih ty) fun extents each => sum _ each
      | flags names => exact .of_ok (flagsExtent_alignable names.length)
      | list element => exact .of_ok ⟨2, by omega, rfl⟩
      | resource => exact .of_ok ⟨2, by omega, rfl⟩
      | «alias» target => exact ih target

theorem measure_alignable {a : Arena} {ty : Ty} {extent : Extent} (measured : measure a ty = .ok extent) :
    Alignable extent.align := measureWithin_alignable a a.depth ty _ measured

theorem measureAll_alignable {a : Arena} {types : List Ty} {extents : List Extent}
    (measured : measureAll a types = .ok extents) : ∀ extent ∈ extents, Alignable extent.align :=
  Ensures.mapM_all (fun ty _ => measureWithin_alignable a a.depth ty) _ measured

theorem recordLayout_alignable {a : Arena} {types : List Ty} {extent : Extent}
    (measured : recordLayout a types = .ok extent) : Alignable extent.align := by
  obtain ⟨extents, each, whole⟩ := bind_eq_ok.mp measured
  exact recordExtent_alignable (measureAll_alignable each) whole

theorem fieldOffsets_length (a : Arena) (types : List Ty) :
    Ensures (fieldOffsets a types) fun offsets => offsets.length = types.length := by
  intro offsets done
  obtain ⟨extents, measured, done⟩ := bind_eq_ok.mp done
  obtain ⟨⟨others, stop⟩, placed, done⟩ := bind_eq_ok.mp done
  cases done
  exact (place_length placed).trans (mapM_eq_ok.mp measured).length_eq.symm

end ZigBindings.Layout
