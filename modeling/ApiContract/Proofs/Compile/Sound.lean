import ApiContract.Proofs.Text.Identifier
import ApiContract.TypeModel.Basic

/-!
# Types in order

Named types are in order (`NamedType.Ordered`) if each mentions only those before it and has a name of its
own. The fields of its records are told apart by their names as well as by their wire names.
-/

namespace ApiContract

variable {types new : List NamedType}

/-- The named type that an expression mentions is one of these. -/
def TypeExpr.Known (types : List NamedType) (e : TypeExpr) : Prop :=
  ∀ n, e.target? = some n → n ∈ types.map (·.name)

theorem TypeExpr.Known.append {e : TypeExpr} (h : e.Known types) : e.Known (types ++ new) := by
  intro n hn
  rw [List.map_append]
  exact List.mem_append_left _ (h n hn)

theorem TypeExpr.known_primitive (p : Primitive) (format : Option String) (nullable : Bool) :
    (TypeExpr.primitive p format nullable).Known types := nofun

/-- The fields can be told apart, and the types of fields and further entries are known. -/
structure Body.Sound (types : List NamedType) (b : Body) : Prop where
  known : ∀ e ∈ b.types, e.Known types
  named : ∀ f ∈ b.fields, Text.IsName f.name
  names : (b.fields.map (·.name)).Nodup
  wireNames : (b.fields.map (·.wireName)).Nodup

theorem Body.Sound.append {b : Body} (h : b.Sound types) : b.Sound (types ++ new) :=
  ⟨fun e he => (h.known e he).append, h.named, h.names, h.wireNames⟩

namespace NamedType

/-- The records that a type is made of. -/
def bodies (t : NamedType) : List Body :=
  match t.shape with
  | .record body => [body]
  | .tagged _ vs | .untagged vs => vs.map fun (v : Variant) => v.body
  | .enumeration _ => []

/-- The records of a type are sound, and the names of its members are different. -/
structure Sound (types : List NamedType) (t : NamedType) : Prop where
  bodies : ∀ b ∈ t.bodies, b.Sound types
  members : (t.members.map (·.name)).Nodup

theorem Sound.append {t : NamedType} (h : t.Sound types) : t.Sound (types ++ new) :=
  ⟨fun b hb => (h.bodies b hb).append, h.members⟩

/-- Each type mentions only those before it and has a name of its own. -/
inductive Ordered : List NamedType → Prop
  | nil : Ordered []
  | snoc {types : List NamedType} {t : NamedType} : Ordered types → t.Sound types →
      t.name ∉ types.map (·.name) → Ordered (types ++ [t])

theorem Ordered.sound {t : NamedType} (h : Ordered types) (ht : t ∈ types) : t.Sound types := by
  induction h with
  | nil => exact absurd ht List.not_mem_nil
  | snoc _ hlast _ ih =>
    rcases List.mem_append.1 ht with ht | ht
    · exact (ih ht).append
    · rw [List.mem_singleton.1 ht]
      exact hlast.append

theorem Ordered.nodup (h : Ordered types) : (types.map (·.name)).Nodup := by
  induction h with
  | nil => exact List.nodup_nil
  | snoc _ _ hfree ih =>
    rw [List.map_append, List.map_singleton]
    exact ih.append (List.nodup_singleton _) (List.disjoint_singleton.2 hfree)

end NamedType

end ApiContract
