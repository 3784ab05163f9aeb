import ZigBindings.Proofs.Emission.Twins
import ZigBindings.Wrapper

/-! Wrappers for functions that belong together. The source of a wrapper depends neither on the numbers
of the definitions nor on the order of the reserved names. -/

namespace ZigBindings

namespace Wrapper
open Zig

variable {R : Nat → Nat → Prop} {a b : Arena} {f g : Function}

theorem setting_agree (twins : Twins R a b) (alike : f.Alike R g) (o : Options) (names others : List String)
    (place : Place) (direction : Direction) : Agree (Setting.Alike R)
      (setting ⟨a, o, names⟩ place direction f) (setting ⟨b, o, others⟩ place direction g) :=
  (Crossing.signature_agree twins direction alike).bind_eq fun _ =>
    .pure ⟨twins, alike, rfl, rfl, rfl, rfl, rfl⟩

theorem emitBody_agree {x y : Setting} (settings : x.Alike R y) {s t : Emission} (like : s.Like t) :
    Agree Emission.Like (emitBody x s) (emitBody y t) := by
  rw [emitBody, emitBody, settings.direction]
  refine (Crossing.sequence_agree settings.twins settings.function _).bind fun _ _ code => ?_
  refine (Emission.emitAll_agree settings like code).bind fun _ _ like => ?_
  exact like.checkFinished.bind_eq fun _ => .pure like

theorem assemble_agree {s t : Emission} (like : s.Like t) (direction : Direction) (width : Int)
    (header : String) : assemble direction width header s = assemble direction width header t := by
  obtain ⟨used, perm, rfl⟩ := like
  rfl

theorem params_agree {s t : Emission} (like : s.Like t) : s.params = t.params := by
  obtain ⟨used, perm, rfl⟩ := like
  rfl

section
variable (twins : Twins R a b) (alike : f.Alike R g) {names others : List String} (perm : names.Perm others)
include twins alike perm

theorem outward_agree (o : Options) (place : Place) :
    Agree Eq (outward ⟨a, o, names⟩ place f) (outward ⟨b, o, others⟩ place g) := by
  refine (Agree.mapM_eq alike.params fun _ _ same => twins.spell same.2).bind_eq fun types => ?_
  refine (twins.spellResults alike).bind_eq fun result => ?_
  refine (setting_agree twins alike o names others place .outward).bind fun _ y settings => ?_
  have start := ((Emission.Like.refl {}).reserve_perm perm).bindParams (f.params.map fun p => Name.identifier p.1)
  rw [names_eq alike.params Name.identifier] at start ⊢
  refine (emitBody_agree settings start).bind fun s t like => .pure ?_
  rw [params_agree like, alike.name]
  exact assemble_agree like _ _ _

theorem inward_agree (o : Options) (place : Place) :
    Agree Eq (inward ⟨a, o, names⟩ place f) (inward ⟨b, o, others⟩ place g) := by
  refine (Agree.forM alike.params fun _ _ same => twins.check same.2).bind_eq fun _ => ?_
  refine (Agree.forM alike.types fun _ _ => twins.check).bind_eq fun _ => ?_
  refine (setting_agree twins alike o names others place .inward).bind fun _ y settings => ?_
  obtain ⟨same, start⟩ := ((Emission.Like.refl {}).reserve_perm perm).tmpAll "arg" y.signature.params.length
  dsimp only
  rw [settings.signature, same]
  refine (emitBody_agree settings (start.params _)).bind fun s t like => .pure ?_
  rw [params_agree like, exportSymbol, exportSymbol, alike.name]
  exact assemble_agree like _ _ _

theorem source_agree (o : Options) (place : Place) (direction : Direction) :
    Agree Eq (source ⟨a, o, names⟩ place direction f) (source ⟨b, o, others⟩ place direction g) := by
  cases direction with
  | outward => exact (outward_agree twins alike perm o place).mapError _ _
  | inward => exact (inward_agree twins alike perm o place).mapError _ _

end

end Wrapper

end ZigBindings
