import ZigBindings.Proofs.Layout.Inside
import ZigBindings.Proofs.Layout.Range

/-! Layouts in exact arithmetic. What is computed with rounded quotients is the exact layout as long as
either of them stays below 2^53 bytes, the range in which doubles are exact. -/

namespace ZigBindings.Layout

/-! ### Rounding -/

/-- Equal, or both beyond the range in which doubles are exact. -/
def Same (n ideal : Nat) : Prop := n = ideal ∨ (2 ^ 53 ≤ n ∧ 2 ^ 53 ≤ ideal)

namespace Same

variable {n m ideal other : Nat}

theorem refl (n : Nat) : Same n n := .inl rfl

theorem add (first : Same n ideal) (second : Same m other) : Same (n + m) (ideal + other) := by
  unfold Same at *
  omega

theorem max (first : Same n ideal) (second : Same m other) : Same (Max.max n m) (Max.max ideal other) := by
  unfold Same at *
  omega

theorem eq_of_lt (same : Same n ideal) (small : n < 2 ^ 53 ∨ ideal < 2 ^ 53) : n = ideal := by
  unfold Same at same
  omega

end Same

theorem alignUp_same {x ideal alignment : Nat} (aligned : Alignable alignment) (same : Same x ideal) :
    Computes (2 ^ 53 ≤ roundUp ideal alignment) (alignUp x alignment) fun y =>
      Same y (roundUp ideal alignment) := by
  by_cases small : x < 2 ^ 53
  · obtain rfl := same.eq_of_lt (.inl small)
    rw [alignUp_exact aligned small]
    exact Same.refl _
  · have large : 2 ^ 53 ≤ ideal := by
      unfold Same at same
      omega
    have beyond := large.trans (roundUp_bounds aligned.positive ideal).1
    rcases alignUp_range (x := x) aligned with ⟨y, done⟩ | failed
    · exact .of_ok done (.inr ⟨alignUp_large aligned (by omega) done, beyond⟩)
    · rw [failed]
      exact ⟨rfl, beyond⟩

/-! ### Fields and payloads -/

/-- The exact offsets of fields laid out in order from `start`. -/
def idealOffsets (start : Nat) : List Extent → List Nat
  | [] => []
  | field :: rest => roundUp start field.align :: idealOffsets (roundUp start field.align + field.size) rest

/-- Where the last of the fields ends. -/
def idealEnd (start : Nat) : List Extent → Nat
  | [] => start
  | field :: rest => idealEnd (roundUp start field.align + field.size) rest

def idealRecord (fields : List Extent) : Extent :=
  ⟨roundUp (idealEnd 0 fields) (maxAlign fields), maxAlign fields⟩

def idealStart (count : Nat) (payloads : List Extent) : Nat :=
  roundUp (discriminantSize count) (maxAlign payloads)

def idealSum (count : Nat) (payloads : List Extent) : Extent :=
  let align := max (discriminantSize count) (maxAlign payloads)
  ⟨roundUp (idealStart count payloads + maxSize payloads) align, align⟩

/-- Fields at these offsets are aligned and follow each other from `start` on. Less than a field's
alignment is left out before it, and the last field ends at `stop` at the latest. -/
def Packed (start : Nat) : List Extent → List Nat → Nat → Prop
  | [], [], stop => start ≤ stop
  | field :: fields, offset :: offsets, stop =>
    field.align ∣ offset ∧ start ≤ offset ∧ offset < start + field.align ∧
      Packed (offset + field.size) fields offsets stop
  | _, _, _ => False

section
variable {fields : List Extent} (positive : ∀ field ∈ fields, 0 < field.align)
include positive

theorem packed_ideal {start stop : Nat} (ends : idealEnd start fields ≤ stop) :
    Packed start fields (idealOffsets start fields) stop := by
  induction fields generalizing start with
  | nil => exact ends
  | cons field rest ih =>
    obtain ⟨first, others⟩ := List.forall_mem_cons.mp positive
    obtain ⟨behind, near⟩ := roundUp_bounds first start
    exact ⟨dvd_roundUp _ _, behind, near, ih others ends⟩

theorem le_idealEnd (start : Nat) : start ≤ idealEnd start fields := by
  induction fields generalizing start with
  | nil => exact le_rfl
  | cons field rest ih =>
    obtain ⟨first, others⟩ := List.forall_mem_cons.mp positive
    have behind := (roundUp_bounds first start).1
    have ends := ih others (roundUp start field.align + field.size)
    rw [idealEnd]
    omega

theorem size_le_idealEnd {field : Extent} (member : field ∈ fields) (start : Nat) :
    field.size ≤ idealEnd start fields := by
  induction fields generalizing start with
  | nil => cases member
  | cons first rest ih =>
    have others := (List.forall_mem_cons.mp positive).2
    rcases List.mem_cons.mp member with rfl | later
    · exact (Nat.le_add_left _ _).trans (le_idealEnd others _)
    · exact ih others later _

end

theorem positive_of_alignable {fields : List Extent} (aligned : ∀ field ∈ fields, Alignable field.align) :
    ∀ field ∈ fields, 0 < field.align := fun field member => (aligned field member).positive

section
variable {fields : List Extent} (aligned : ∀ field ∈ fields, Alignable field.align)
include aligned

theorem idealEnd_le_idealRecord : idealEnd 0 fields ≤ (idealRecord fields).size :=
  (roundUp_bounds (maxAlign_alignable aligned).positive _).1

theorem size_le_idealRecord {field : Extent} (member : field ∈ fields) :
    field.size ≤ (idealRecord fields).size :=
  (size_le_idealEnd (positive_of_alignable aligned) member 0).trans (idealEnd_le_idealRecord aligned)

theorem idealSum_bounds (count : Nat) : discriminantSize count ≤ idealStart count fields ∧
    idealStart count fields + maxSize fields ≤ (idealSum count fields).size := by
  have most := maxAlign_alignable aligned
  exact ⟨(roundUp_bounds most.positive _).1,
    (roundUp_bounds ((discriminantSize_alignable count).max most).positive _).1⟩

theorem size_le_idealSum {field : Extent} (member : field ∈ fields) (count : Nat) :
    field.size ≤ (idealSum count fields).size := by
  have within := size_le_maxSize member
  have bounds := (idealSum_bounds aligned count).2
  omega

end

/-! ### Computed layouts and exact ones -/

/-- The same alignment, and the same size unless both are out of range. -/
structure Extent.Like (extent ideal : Extent) : Prop where
  align : extent.align = ideal.align
  size : Same extent.size ideal.size

theorem Extent.Like.eq_of_lt {extent ideal : Extent} (like : extent.Like ideal)
    (small : extent.size < 2 ^ 53 ∨ ideal.size < 2 ^ 53) : extent = ideal := by
  obtain ⟨size, align⟩ := extent
  obtain ⟨align_eq, size_eq⟩ := like
  obtain rfl : size = ideal.size := size_eq.eq_of_lt small
  obtain rfl : align = ideal.align := align_eq
  rfl

section
variable {fields ideals : List Extent} (like : List.Forall₂ Extent.Like fields ideals)
include like

theorem maxAlign_like : maxAlign fields = maxAlign ideals := by
  have aligns : fields.map (·.align) = ideals.map (·.align) := by
    induction like with
    | nil => rfl
    | cons first _ ih => rw [List.map_cons, List.map_cons, first.align, ih]
  rw [maxAlign, aligns, maxAlign]

theorem maxSize_like : Same (maxSize fields) (maxSize ideals) := by
  have folded : ∀ start ideal, Same start ideal →
      Same ((fields.map (·.size)).foldl max start) ((ideals.map (·.size)).foldl max ideal) := by
    induction like with
    | nil => exact fun _ _ same => same
    | cons first _ ih => exact fun _ _ same => ih _ _ (same.max first.size)
  exact folded 0 0 (.refl 0)

variable (aligned : ∀ ideal ∈ ideals, Alignable ideal.align)
include aligned

theorem place_like {start ideal : Nat} (same : Same start ideal) :
    Computes (2 ^ 53 ≤ idealEnd ideal ideals) (place start fields) fun placed =>
      Same placed.2 (idealEnd ideal ideals) ∧
        (idealEnd ideal ideals < 2 ^ 53 → placed.1 = idealOffsets ideal ideals) := by
  induction like generalizing start ideal with
  | nil => exact ⟨same, fun _ => rfl⟩
  | @cons field exact_ fields ideals first _ ih =>
    obtain ⟨known, others⟩ := List.forall_mem_cons.mp aligned
    have ends := le_idealEnd (positive_of_alignable others) (roundUp ideal exact_.align + exact_.size)
    rw [place, first.align]
    refine ((alignUp_same known same).widen fun many => ?_).bind fun offset behind => ?_
    · exact (many.trans (Nat.le_add_right _ _)).trans ends
    refine (ih others (behind.add first.size)).bind fun placed rest => ⟨rest.1, fun small => ?_⟩
    have small_offset : roundUp ideal exact_.align < 2 ^ 53 := by
      rw [idealEnd] at small
      omega
    rw [idealOffsets, behind.eq_of_lt (.inr small_offset), rest.2 small]

theorem recordExtent_like : Computes (2 ^ 53 ≤ (idealRecord ideals).size) (recordExtent fields)
    fun extent => extent.Like (idealRecord ideals) := by
  have aligns := maxAlign_like like
  unfold recordExtent
  split
  case isTrue none =>
    obtain rfl := List.isEmpty_iff.mp none
    cases like
    exact ⟨rfl, .inl (by decide)⟩
  case isFalse =>
    refine ((place_like like aligned (.refl 0)).widen fun many => ?_).bind fun placed rest => ?_
    · exact many.trans (idealEnd_le_idealRecord aligned)
    rw [aligns]
    exact (alignUp_same (maxAlign_alignable aligned) rest.1).bind fun size same => ⟨rfl, same⟩

theorem sumExtent_like (count : Nat) : Computes (2 ^ 53 ≤ (idealSum count ideals).size)
    (sumExtent count fields) fun extent => extent.Like (idealSum count ideals) := by
  have most := maxAlign_alignable aligned
  have bounds := (idealSum_bounds aligned count).2
  rw [sumExtent, payloadStart, maxAlign_like like]
  refine ((alignUp_same most (.refl _)).widen fun many => ?_).bind fun start behind => ?_
  · exact (many.trans (Nat.le_add_right _ _)).trans bounds
  refine (alignUp_same ((discriminantSize_alignable count).max most)
    (behind.add (maxSize_like like))).bind fun size same => ⟨rfl, same⟩

end

/-! ### Exact layouts of themselves -/

section
variable {fields : List Extent} (aligned : ∀ field ∈ fields, Alignable field.align)
include aligned

theorem place_ideal (small : idealEnd 0 fields < 2 ^ 53) :
    place 0 fields = .ok (idealOffsets 0 fields, idealEnd 0 fields) := by
  have like : List.Forall₂ Extent.Like fields fields :=
    List.forall₂_same.mpr fun _ _ => ⟨rfl, .refl _⟩
  have computes := place_like like aligned (.refl 0)
  cases done : place 0 fields with
  | ok placed =>
    rw [done] at computes
    obtain ⟨offsets, stop⟩ := placed
    obtain ⟨same, offsets_eq⟩ := computes
    obtain rfl : offsets = _ := offsets_eq small
    obtain rfl : stop = _ := same.eq_of_lt (.inr small)
    rfl
  | error fault =>
    rw [done] at computes
    exact absurd computes.2 (by omega)

theorem recordExtent_ideal (small : idealEnd 0 fields < 2 ^ 53) :
    recordExtent fields = .ok (idealRecord fields) := by
  unfold recordExtent
  split
  case isTrue none =>
    obtain rfl := List.isEmpty_iff.mp none
    decide
  case isFalse =>
    simp only [place_ideal aligned small, ok_bind, alignUp_exact (maxAlign_alignable aligned) small]
    rfl

theorem payloadStart_ideal (count : Nat) : payloadStart count fields = .ok (idealStart count fields) := by
  have small := discriminantSize_le count
  exact alignUp_exact (maxAlign_alignable aligned) (by omega)

end

end ZigBindings.Layout
