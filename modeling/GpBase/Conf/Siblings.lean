import GpBase.Conf.Final

/-!
# Sibling names

In every tree that a history of calls can leave, failed loads included, a node has
at most one child of each name.
-/

namespace GpBase.Conf

open GpBase.Lib GpConfNode

/-- A node and all nodes below it. -/
inductive Below (n : GpConfNode) : GpConfNode → Prop
  | here : Below n n
  | child {m c : GpConfNode} : Below n m → c ∈ m.children → Below n c

theorem Distinct.of_below {n m : GpConfNode} (distinct : Distinct n) (below : Below n m) :
    Distinct m := by
  induction below with
  | here => exact distinct
  | child _ mem ih => exact ih.child mem

/-- **Sibling names are unique**, so that `gp_conf_node_lookup_child` finds the only
match. -/
theorem siblings_unique {calls : List (ConfCall × Int)} {s : ConfStore}
    (run : confSys.Run calls s) {n : GpConfNode} (below : Below s.root n) :
    (n.children.map (·.name)).Nodup ∧
      ∀ key c, n.gpConfNodeLookupChild key = some c ↔ c ∈ n.children ∧ c.name = some key := by
  have names := ((run_distinct run).of_below below).names
  exact ⟨names, fun key c => lookup_iff names⟩

/-- The events of a document with the key `a` twice, the second time with the
sequence of `x`, and no end. -/
def repeating : List YamlEvent :=
  [.streamStart, .documentStart (some (1, 1)), .mappingStart, .scalar (ascii "a") none,
    .scalar (ascii "1") none, .scalar (ascii "a") none, .sequenceStart, .scalar (ascii "x") none]

theorem siblings_unique_repeating :
    ∃ s, confSys.Run [(.set (ascii "a.0") (ascii "y"), 1), (.loadString noFiles repeating, -1)] s ∧
      (s.root.children.map (·.name)).Nodup ∧ s.root.children.length = 1 := by
  let zero : GpConfNode := ⟨some (ascii "0"), some (ascii "y"), false, false, true, []⟩
  let x : GpConfNode := ⟨some (ascii "0"), some (ascii "x"), false, false, false, []⟩
  let a : GpConfNode := ⟨some (ascii "a"), none, false, false, true, []⟩
  let s₁ : ConfStore := ⟨gpConfNodeNew.insertTail (a.insertTail zero), none⟩
  let s₂ : ConfStore := ⟨gpConfNodeNew.insertTail (a.insertTail x), none⟩
  have run₀ : confSys.Run [] gpConfInit := .init rfl
  have run₁ : confSys.Run [(.set (ascii "a.0") (ascii "y"), 1)] s₁ := .step run₀ ⟨1, by rfl⟩
  have run₂ : confSys.Run [(.set (ascii "a.0") (ascii "y"), 1),
      (.loadString noFiles repeating, -1)] s₂ := .step run₁ ⟨1, by rfl⟩
  exact ⟨s₂, run₂, (siblings_unique run₂ .here).1, rfl⟩

end GpBase.Conf
