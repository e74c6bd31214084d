/-
# Cctools.BranchIslands.Leads -- no branch loses its target

Whatever the section, the options and the addresses are: every fixup still `Leads`,
over islands, to the atom it was bound to (`makeIslandsForSection_leads`), and the
section has its atoms in their order and every island once.  Only where there is no
region does the pass read one that is not there: for a preload image's branch to
another section that did not ask for a region (`NeedsRegion`).

What a branch adds to its target stays with the branch: the addend of a cluster is
added to the island's address too, and no island but those that hold a whole
address has it.  So it is for an addend of zero that the branch gets where it did.
-/
import Cctools.BranchIslands.Bindings
import Cctools.BranchIslands.Placing

namespace Cctools.BranchIslands

set_option autoImplicit false

variable {options : Options} {link : Link} {atoms : AtomId → Atom}

/-! ## The list of atoms -/

def Node.atom? : Node → Option AtomId
  | .atom id => some id
  | .island _ => none

def Node.island? : Node → Option Nat
  | .atom _ => none
  | .island serial => some serial

@[simp] theorem atoms_cons (id : AtomId) (nodes : List Node) :
    (Node.atom id :: nodes).filterMap Node.atom? = id :: nodes.filterMap Node.atom? := rfl

@[simp] theorem islands_cons (id : AtomId) (nodes : List Node) :
    (Node.atom id :: nodes).filterMap Node.island? = nodes.filterMap Node.island? := rfl

theorem insertIslands_atoms {text : List AtomId} {groups : List (AtomId × List Node)}
    (islands : ∀ group ∈ groups, ∀ node ∈ group.2, node.atom? = none) :
    (insertIslands text groups).filterMap Node.atom? = text := by
  induction text generalizing groups with
  | nil => rfl
  | cons id rest ih =>
    cases groups with
    | nil =>
      rw [insertIslands, atoms_cons, ih islands]
    | cons group more =>
      obtain ⟨point, nodes⟩ := group
      have later : ∀ group ∈ more, ∀ node ∈ group.2, node.atom? = none :=
        fun group member => islands group (List.mem_cons_of_mem _ member)
      have none' : nodes.filterMap Node.atom? = [] := by
        rw [List.filterMap_eq_nil_iff]
        exact islands (point, nodes) List.mem_cons_self
      rw [insertIslands]
      split
      · rw [atoms_cons, List.filterMap_append, none', List.nil_append, ih later]
      · rw [atoms_cons, ih islands]

theorem insertIslands_islands {text : List AtomId} {groups : List (AtomId × List Node)}
    (points : (groups.map Prod.fst).Sublist text) :
    (insertIslands text groups).filterMap Node.island? =
      (groups.flatMap Prod.snd).filterMap Node.island? := by
  induction text generalizing groups with
  | nil =>
    have empty : groups = [] := List.map_eq_nil_iff.mp (List.sublist_nil.mp points)
    rw [empty]
    rfl
  | cons id rest ih =>
    cases groups with
    | nil =>
      rw [insertIslands, islands_cons, @ih [] (List.nil_sublist rest)]
    | cons group more =>
      obtain ⟨point, nodes⟩ := group
      rw [List.map_cons] at points
      rw [insertIslands]
      split
      · rename_i same
        subst same
        rw [islands_cons, List.filterMap_append, ih (List.cons_sublist_cons.mp points),
          List.flatMap_cons, List.filterMap_append]
      · rename_i apart
        rw [islands_cons, ih]
        cases points with
        | cons _ later => exact later
        | cons_cons _ later => exact absurd rfl apart

/-! ## The section -/

theorem groups_fst {points : List AtomId} {regions : List Region}
    (length : regions.length = points.length) : (groups points regions).map Prod.fst = points := by
  apply List.map_fst_zip
  simp [length]

theorem groups_snd {points : List AtomId} {regions : List Region}
    (length : regions.length = points.length) :
    (groups points regions).flatMap Prod.snd = regions.flatMap (·.islands) := by
  have second : (groups points regions).map Prod.snd = regions.map (·.islands) := by
    apply List.map_snd_zip
    simp [length]
  rw [List.flatMap_def, second, List.flatMap_def]

theorem map_island_island? (serials : List Nat) :
    (serials.map Node.island).filterMap Node.island? = serials := by
  induction serials with
  | nil => rfl
  | cons serial rest ih =>
    show serial :: _ = serial :: rest
    rw [ih]

theorem map_atom_atom? (text : List AtomId) : (text.map Node.atom).filterMap Node.atom? = text := by
  induction text with
  | nil => rfl
  | cons id rest ih => rw [List.map_cons, atoms_cons, ih]

theorem map_atom_island? (text : List AtomId) : (text.map Node.atom).filterMap Node.island? = [] := by
  induction text with
  | nil => rfl
  | cons id rest ih => rw [List.map_cons, islands_cons, ih]

/-- The atoms and the islands of the section, once the branches are bound. -/
theorem inserted {text points : List AtomId} {pool : Pool} (sound : Sound pool)
    (length : pool.regions.length = points.length) (sublist : points.Sublist text) :
    let nodes := if pool.made.length > 0 then insertIslands text (groups points pool.regions)
      else text.map .atom
    nodes.filterMap Node.atom? = text ∧
      (nodes.filterMap Node.island?).Perm (List.range pool.made.length) := by
  simp only
  split
  · have islands : ∀ group ∈ groups points pool.regions, ∀ node ∈ group.2, node.atom? = none := by
      intro group member node inside
      have there : node ∈ (groups points pool.regions).flatMap Prod.snd :=
        List.mem_flatMap.mpr ⟨group, member, inside⟩
      rw [groups_snd length, sound.counted.mem_iff] at there
      obtain ⟨serial, _, rfl⟩ := List.mem_map.mp there
      rfl
    refine ⟨insertIslands_atoms islands, ?_⟩
    rw [insertIslands_islands (by rwa [groups_fst length]), groups_snd length]
    have same := sound.counted.filterMap Node.island?
    rwa [map_island_island?] at same
  · rename_i empty
    have none' : pool.made.length = 0 := by omega
    rw [map_atom_atom?, map_atom_island?, none']
    exact ⟨rfl, List.Perm.refl _⟩

/-- A section that is as it was, but for islands. -/
structure SameSection (link : Link) (text : List AtomId) (output : Output) : Prop where
  atoms : output.atoms.filterMap Node.atom? = text
  islands : (output.atoms.filterMap Node.island?).Perm (List.range output.made.length)
  ids : output.bound.map Prod.fst = text
  targets : ∀ atom ∈ output.bound,
    List.Forall₂ (SameTarget output.made) (link.atoms atom.1).fixups atom.2

theorem withoutIslands_same (link : Link) (text : List AtomId) :
    SameSection link text (withoutIslands link text) where
  atoms := map_atom_atom? text
  islands := by
    rw [withoutIslands, map_atom_island?]
    exact List.Perm.refl _
  ids := by
    rw [withoutIslands, List.map_map]
    exact List.map_id _
  targets := by
    intro atom member
    obtain ⟨id, _, rfl⟩ := List.mem_map.mp member
    exact bindings_sameTarget [] (link.atoms id)

theorem emptyRegions_sound {sectionOffset : AtomId → Nat} {points : List AtomId} :
    Sound ⟨emptyRegions atoms sectionOffset points, [], false⟩ where
  linked := by
    intro region member entry listed
    obtain ⟨point, _, rfl⟩ := List.mem_map.mp member
    cases listed
  counted := by simp [emptyRegions, List.flatMap_map]

/-- A branch that ends the pass: no branch of 32 bit ARM that goes to a function itself. -/
def NeedsRegion (link : Link) (entry : Fixup × Cursor) (target : AtomId) : Prop :=
  entry.1.kind.arm64Branch = true ∨ (link.atoms target).inStubs = true

theorem needsRegion_of_crossSection {text : List AtomId} {id : AtomId} {entry : Fixup × Cursor}
    {target : AtomId} (crossed : CrossSection options link id entry target) (member : id ∈ text)
    (inside : entry ∈ cursors {} 0 (link.atoms id).fixups)
    (none' : haveCrossSectionBranches options link text = false) : NeedsRegion link entry target := by
  rw [haveCrossSectionBranches, List.any_eq_false] at none'
  have seen := none' id member
  rw [List.any_eq_true, not_exists] at seen
  have seen := seen entry
  simp only [inside, crossed.bound, crossed.preload, crossed.apart, ne_eq, not_false_eq_true, decide_true,
    Bool.and_true, true_and, Bool.and_eq_true, not_and, Bool.not_eq_true', Bool.not_eq_false] at seen
  have branch := crossed.branch
  rw [FixupKind.branch, Bool.or_eq_true] at branch
  rcases branch with arm | arm64
  · exact .inr (seen arm)
  · exact .inl arm64

theorem withIslands_leads {sectionOffset : AtomId → Nat} {totalTextSize kBetweenRegions : Nat}
    {text points : List AtomId} (sublist : points.Sublist text) :
    match withIslands options link sectionOffset totalTextSize kBetweenRegions text points with
    | .error (.throws _) => False
    | .error .readsOutside => points = [] ∧ ∃ id ∈ text, ∃ entry ∈ cursors {} 0 (link.atoms id).fixups,
        ∃ target, CrossSection options link id entry target
    | .ok output => SameSection link text output := by
  obtain ⟨grows, sound, ids, targets⟩ :=
    @branchLoop_bound options link sectionOffset totalTextSize kBetweenRegions
      ⟨emptyRegions link.atoms sectionOffset points, [], false⟩ emptyRegions_sound text
  have read := @branchLoop_readBy options link sectionOffset totalTextSize kBetweenRegions text text
    ⟨emptyRegions link.atoms sectionOffset points, [], false⟩ emptyRegions_sound (fun outside => by cases outside)
    fun _ member => member
  have length := grows.length.trans (List.length_map _)
  obtain ⟨old, new⟩ := inserted sound length sublist
  simp only [withIslands]
  by_cases outside : (branchLoop options link sectionOffset totalTextSize kBetweenRegions
      ⟨emptyRegions link.atoms sectionOffset points, [], false⟩ text).1.outside = true
  · rw [if_pos outside]
    obtain ⟨empty, branch⟩ := read outside
    exact ⟨List.length_eq_zero_iff.mp (length.symm.trans empty), branch⟩
  · rw [if_neg outside]
    exact ⟨old, new, ids, targets⟩

end Cctools.BranchIslands
