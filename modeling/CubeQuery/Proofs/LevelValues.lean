import CubeQuery.Compile.LevelSet
import CubeQuery.Proofs.Compiled
import CubeQuery.Proofs.Lookup

/-!
# Single names in a parameter's value

A single name in the value of a parameter is put below the unique name of the level it is bound to,
and the path made of both is looked up in the whole cube. On a cube with distinct names such a path
leads to a member of that level by the name of the level. But it may as well be the path of a member
elsewhere: a member of the hierarchy can be named like the level, and the dimension can have a
hierarchy named like it. What lies below one of these bears the very unique name that was put
together (`Compiler.single_names`), and it comes first (`Compiler.single_names_elsewhere`).
-/

namespace CubeQuery

open Identifier

/-! ## What a path leads to -/

namespace CubeEntry

variable {e : CubeEntry} {h : Hierarchy}

/-- A hierarchy is found by its names. -/
theorem Distinct.hierarchy_eq (he : e.Distinct) (hh : h ∈ e.link.hierarchies) {h' : Hierarchy}
    (hh' : h' ∈ e.link.hierarchies) (hnames : h.names = h'.names) : h = h' :=
  List.inj_on_of_nodup_map he.keys hh hh' (Hierarchy.key_eq_of_names hnames)

/-- The names of a level with a further name lead to a member of that name: on the level, or
elsewhere by just this path. -/
theorem Distinct.member?_level (he : e.Distinct) (hh : h ∈ e.link.hierarchies) {l : Level}
    (hl : l ∈ h.levels) {name : String} {m : Member}
    (hm : e.link.member? (h.names ++ [l.name] ++ [name]) = some m) :
    m.name = name ∧ (m ∈ l.members ∨ m.uniqueName = below l.uniqueName name) := by
  generalize hpath : h.names ++ [l.name] ++ [name] = path at hm
  cases Cube.leadsTo_of_member? hm with
  | measure =>
    have hlength := congrArg List.length hpath
    have hnames := List.length_pos_of_ne_nil h.names_ne_nil
    simp only [List.length_append, List.length_cons, List.length_nil] at hlength
    omega
  | @path h' l' path hh' hl' _ hne =>
    have hlast : path.getLast? = some name := by
      rw [← List.getLast?_append_of_ne_nil _ hne, ← hpath, List.getLast?_concat]
    refine ⟨by rw [Level.member, hlast, Option.getD_some], .inr ?_⟩
    rw [uniqueName_member hh' hl', ← hpath, ← foldl_below_uniqueName (by simp),
      ← uniqueName_level hh hl]
    rfl
  | @level h' l' path hh' hl' hmem =>
    rw [List.append_assoc] at hpath
    obtain ⟨hnames, hends⟩ := List.append_inj' hpath rfl
    obtain ⟨hlevel, hname⟩ : l.name = l'.name ∧ name = (l'.member path).name := by
      simpa using hends
    cases he.hierarchy_eq hh hh' hnames
    cases List.inj_on_of_nodup_map (he.levelNames hh) hl hl' hlevel
    exact ⟨hname.symm, .inl (List.mem_map_of_mem hmem)⟩

end CubeEntry

/-! ## Values -/

namespace Compiler

/-- The path that an entry of a value on a level stands for. -/
def valuePath (level : Level) (path : List String) : List String :=
  match path with
  | [_] => (segments? level.uniqueName).getD [] ++ path
  | _ => path

/-- The member that an entry of a value names. -/
def valueMember (c : Compiler) (level : Level) (entry : String) : Except Failure Member := do
  let some path := segments? entry | throw (.unknownMember entry)
  let some m := c.source.member? (valuePath level path) | throw (.unknownMember entry)
  return m

theorem valueMembers_eq (c : Compiler) (level : Level) (value : String) :
    c.valueMembers level value = (Text.commaList value).mapM (c.valueMember level) := rfl

theorem valueMember_eq_ok {c : Compiler} {level : Level} {entry : String} {m : Member} :
    c.valueMember level entry = .ok m ↔
      ∃ path, segments? entry = some path ∧ c.source.member? (valuePath level path) = some m := by
  unfold valueMember
  cases segments? entry with
  | none => simp
  | some path => cases hm : c.source.member? (valuePath level path) <;> simp [hm]

/-- **Single names.** On a cube with distinct names, each member that a single name in the value of
a parameter stands for has that name. It is a member of the level that the parameter is bound to,
or else a member that bears the very unique name made of the level's and its own. -/
theorem single_names (e : CubeEntry) (he : e.Distinct) (options : Options) {h : Hierarchy}
    (hh : h ∈ e.link.hierarchies) {l : Level} (hl : l ∈ h.levels) {value : String}
    {ms : List Member} (hms : (ofCube e.link options).valueMembers l value = .ok ms) :
    List.Forall₂ (fun entry m => ∀ name, segments? entry = some [name] → m.name = name ∧
      (m ∈ l.members ∧ m.hierarchy = h.uniqueName ∧ m.level = l.uniqueName ∨
        m ∈ e.link.members ∧ m.uniqueName = below l.uniqueName name))
      (Text.commaList value) ms := by
  rw [valueMembers_eq] at hms
  refine (forall₂_of_mapM hms).imp fun entry m hm name hname => ?_
  obtain ⟨path, hpath, hm⟩ := valueMember_eq_ok.1 hm
  cases hname.symm.trans hpath
  have hfound : e.link.member? (h.names ++ [l.name] ++ [name]) = some m := by
    rw [← hm, valuePath, CubeEntry.uniqueName_level hh hl, segments?_uniqueName (by simp)]
    rfl
  obtain ⟨hmname, hplace⟩ := he.member?_level hh hl hfound
  refine ⟨hmname, hplace.imp (fun hon => ⟨hon, ?_⟩) fun hbears =>
    ⟨Cube.mem_members_of_member? hfound, hbears⟩⟩
  obtain ⟨path, -, rfl⟩ := List.mem_map.1 hon
  exact ⟨CubeEntry.level_hierarchy hh hl, rfl⟩

/-- Products in lines and models. One of the lines is named like their level, and one of its models
like another line. -/
def linesEntry : CubeEntry where
  name := "Sales"
  dimensions := [
    { name := "Product"
      hierarchies := [
        { name := "Goods"
          levels := [
            { name := "Line", members := [["Cars"], ["Planes"], ["Line"]] },
            { name := "Model", members := [["Line", "Cars"]] }] }] }]

def goods : Hierarchy := linesEntry.link.hierarchies.headD default

def goodsLine : Level := goods.levels.headD default

theorem single_names_planes :
    ∃ m, (ofCube linesEntry.link).valueMembers goodsLine " Planes" = .ok [m] ∧
      m.name = "Planes" ∧ m ∈ goodsLine.members := by
  have hms : (ofCube linesEntry.link).valueMembers goodsLine " Planes" =
      .ok [goodsLine.member ["Planes"]] := by decide +kernel
  have hnames := single_names linesEntry ⟨by decide, by decide, by decide⟩ {} (h := goods)
    (by decide +kernel) (by decide +kernel) hms
  have hlist : Text.commaList " Planes" = ["Planes"] := by decide +kernel
  rw [hlist] at hnames
  obtain ⟨hnamed, -⟩ := List.forall₂_cons.1 hnames
  obtain ⟨hname, hplace⟩ := hnamed "Planes" (by decide +kernel)
  exact ⟨_, hms, hname, (hplace.resolve_right (by decide +kernel)).1⟩

/-- The name of a line is taken for a model. -/
theorem single_names_elsewhere :
    linesEntry.Distinct ∧ goods ∈ linesEntry.link.hierarchies ∧ goodsLine ∈ goods.levels ∧
      segments? "Cars" = some ["Cars"] ∧ goodsLine.member ["Cars"] ∈ goodsLine.members ∧
      ∃ m, (ofCube linesEntry.link).valueMembers goodsLine "Cars" = .ok [m] ∧
        m.level = "[Product].[Goods].[Model]" ∧ m.level ≠ goodsLine.uniqueName := by
  refine ⟨⟨by decide, by decide, by decide⟩, by decide +kernel, by decide +kernel,
    by decide +kernel, by decide +kernel, ?_⟩
  refine ⟨⟨"Cars", "[Product].[Goods].[Line].[Cars]", "[Product].[Goods].[Model]",
    "[Product].[Goods]", 1, .regular⟩, ?_⟩
  decide +kernel

end Compiler
end CubeQuery
