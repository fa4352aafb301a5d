import Reaming.Settings
import Reaming.Proofs.Json.Exact
import Reaming.Proofs.Json.Record

namespace Reaming

open Json

/-- What may be left out of a settings file. -/
inductive Omittable where
  | reaming
  | floorHeight
  | volumeUnits
  | areaPolicy
  | prologue
  | epilogue
  deriving DecidableEq, Repr

def Omittable.member (gone : List Omittable) (o : Omittable) (v : Json) : Option Json :=
  if o ∈ gone then none else some v

open Omittable

theorem plain_of_mem_member {gone : List Omittable} {o : Omittable} {v : Json} (h : Plain v) :
    ∀ u ∈ member gone o v, Plain u := by
  intro u hu
  obtain ⟨_, hu⟩ := Option.ite_none_left_eq_some.mp hu
  exact Option.some.inj hu ▸ h

/-- A member that is gone is read as the value that stands in for it. -/
theorem optional?_member {β : Type} (gone : List Omittable) (o : Omittable) (absent : β)
    (read? : Json → Option β) (v : Json) :
    optional? absent read? (member gone o v) = if o ∈ gone then some absent else read? v := by
  rw [member]
  split <;> rfl

namespace Config

def floats (c : Config) : List Float :=
  [c.safeZ, c.lineHeight, c.lineWidth, c.cutHeight, c.widthOffset]

/-- The configuration with each of its doubles replaced, if all of them can be. -/
def mapFloats? (f : Float → Option Float) (c : Config) : Option Config := do
  return { c with
    safeZ := ← f c.safeZ
    lineHeight := ← f c.lineHeight
    lineWidth := ← f c.lineWidth
    cutHeight := ← f c.cutHeight
    widthOffset := ← f c.widthOffset }

theorem mapFloats?_eq_self {f : Float → Option Float} {c : Config} :
    c.mapFloats? f = some c ↔ ∀ x ∈ c.floats, f x = some x := by
  obtain ⟨safeZ, lineHeight, lineWidth, cutHeight, widthOffset, behavior, atEnd, prologue,
    epilogue⟩ := c
  simp only [mapFloats?, floats, List.forall_mem_cons, List.not_mem_nil, Option.bind_eq_bind,
    Option.pure_def, Option.bind_eq_some_iff, Option.some.injEq, mk.injEq]
  constructor
  · rintro ⟨a, ha, b, hb, d, hd, e, he, g, hg, rfl, rfl, rfl, rfl, rfl, -⟩
    exact ⟨ha, hb, hd, he, hg, fun _ hx => hx.elim⟩
  · rintro ⟨ha, hb, hd, he, hg, -⟩
    exact ⟨_, ha, _, hb, _, hd, _, he, _, hg, rfl, rfl, rfl, rfl, rfl, trivial, trivial, trivial, trivial⟩

def partJson (c : Config) (gone : List Omittable) : Json :=
  sparse
    [("safe_z", some (ofFloat c.safeZ)), ("line_height", some (ofFloat c.lineHeight)),
      ("line_width", some (ofFloat c.lineWidth)), ("cut_height", some (ofFloat c.cutHeight)),
      ("width_offset", some (ofFloat c.widthOffset)),
      ("cut_behavior", some (ofString c.cutBehavior.name)), ("cut_at_end", some (.bool c.cutAtEnd)),
      ("prologue", member gone .prologue (ofString c.prologue)),
      ("epilogue", member gone .epilogue (ofString c.epilogue))]

/-- The configuration with other program texts in place of those that are gone. -/
def filled (c : Config) (gone : List Omittable) (prologue epilogue : String) : Config :=
  { c with
    prologue := if .prologue ∈ gone then prologue else c.prologue
    epilogue := if .epilogue ∈ gone then epilogue else c.epilogue }

theorem plain_partJson (c : Config) (gone : List Omittable) : Plain (c.partJson gone) := by
  have hsome {v : Json} (h : Plain v) : ∀ u ∈ some v, Plain u := by
    rintro _ ⟨⟩
    exact h
  apply plain_sparse
  simp only [List.forall_mem_cons, List.not_mem_nil]
  exact ⟨hsome (plain_ofFloat _), hsome (plain_ofFloat _), hsome (plain_ofFloat _),
    hsome (plain_ofFloat _), hsome (plain_ofFloat _), hsome (.string _), hsome (.bool _),
    plain_of_mem_member (.string _), plain_of_mem_member (.string _), fun _ h => h.elim⟩

theorem fields?_partJson (c : Config) (gone : List Omittable) :
    fields? ["safe_z", "line_height", "line_width", "cut_height", "width_offset", "cut_behavior",
        "cut_at_end", "prologue", "epilogue"] (c.partJson gone) =
      some [some (ofFloat c.safeZ), some (ofFloat c.lineHeight), some (ofFloat c.lineWidth),
        some (ofFloat c.cutHeight), some (ofFloat c.widthOffset),
        some (ofString c.cutBehavior.name), some (.bool c.cutAtEnd),
        member gone .prologue (ofString c.prologue), member gone .epilogue (ofString c.epilogue)] :=
  fields?_sparse rfl (by decide)

/-- A program text that is gone is read as an empty one. -/
theorem ofJson?_partJson (c : Config) (gone : List Omittable) :
    ofJson? (c.partJson gone) = (c.filled gone "" "").mapFloats? reread? := by
  have hbehavior : required? CutBehavior.ofJson? (some (ofString c.cutBehavior.name)) =
      some c.cutBehavior :=
    CutBehavior.ofName?_name c.cutBehavior
  have htext (o : Omittable) (t : String) : optional? "" string? (member gone o (ofString t)) =
      some (if o ∈ gone then "" else t) := by
    rw [optional?_member, apply_ite some]
    rfl
  have hfloat : ∀ x : Float, required? float? (some (ofFloat x)) = reread? x := fun _ => rfl
  have hend : required? bool? (some (.bool c.cutAtEnd)) = some c.cutAtEnd := rfl
  unfold ofJson?
  rw [fields?_partJson]
  simp only [Option.bind_eq_bind, Option.bind_some, hbehavior, htext, hfloat, hend]
  rfl

end Config

namespace Settings

def floats (s : Settings) : List Float := s.reaming.floats ++ [s.floorHeight]

def mapFloats? (f : Float → Option Float) (s : Settings) : Option Settings := do
  return { s with reaming := ← s.reaming.mapFloats? f, floorHeight := ← f s.floorHeight }

theorem mapFloats?_eq_self {f : Float → Option Float} {s : Settings} :
    s.mapFloats? f = some s ↔ ∀ x ∈ s.floats, f x = some x := by
  obtain ⟨reaming, floorHeight, units, policy⟩ := s
  simp only [mapFloats?, floats, List.forall_mem_append, List.forall_mem_singleton,
    Option.bind_eq_bind, Option.pure_def, Option.bind_eq_some_iff, Option.some.injEq, mk.injEq]
  rw [← Config.mapFloats?_eq_self]
  constructor
  · rintro ⟨c, hc, x, hx, rfl, rfl, -⟩
    exact ⟨hc, hx⟩
  · rintro ⟨hc, hx⟩
    exact ⟨_, hc, _, hx, rfl, rfl, trivial, trivial⟩

def partJson (s : Settings) (gone : List Omittable) : Json :=
  sparse
    [("reaming", member gone .reaming (s.reaming.partJson gone)),
      ("floor_height", member gone .floorHeight (ofFloat s.floorHeight)),
      ("volume_units", member gone .volumeUnits (ofString s.volumeUnits.name)),
      ("area_policy", member gone .areaPolicy (ofString s.areaPolicy.name))]

theorem partJson_nil (s : Settings) : s.partJson [] = s.toJson := rfl

/-- The settings with defaults in place of what is gone. In a configuration that is there the given
texts stand in for program texts that are gone. -/
def filled (s : Settings) (gone : List Omittable) (prologue epilogue : String) : Settings where
  reaming := if .reaming ∈ gone then default else s.reaming.filled gone prologue epilogue
  floorHeight := if .floorHeight ∈ gone then (default : Settings).floorHeight else s.floorHeight
  volumeUnits := if .volumeUnits ∈ gone then default else s.volumeUnits
  areaPolicy := if .areaPolicy ∈ gone then default else s.areaPolicy

theorem plain_partJson (s : Settings) (gone : List Omittable) : Plain (s.partJson gone) := by
  apply plain_sparse
  simp only [List.forall_mem_cons, List.not_mem_nil]
  exact ⟨plain_of_mem_member (s.reaming.plain_partJson gone), plain_of_mem_member (plain_ofFloat _),
    plain_of_mem_member (.string _), plain_of_mem_member (.string _), fun _ h => h.elim⟩

theorem fields?_partJson (s : Settings) (gone : List Omittable) :
    fields? ["reaming", "floor_height", "volume_units", "area_policy"] (s.partJson gone) =
      some [member gone .reaming (s.reaming.partJson gone),
        member gone .floorHeight (ofFloat s.floorHeight),
        member gone .volumeUnits (ofString s.volumeUnits.name),
        member gone .areaPolicy (ofString s.areaPolicy.name)] :=
  fields?_sparse rfl (by decide)

/-- The default doubles read back as they are written. -/
theorem reread?_default : ∀ x ∈ (default : Settings).floats, reread? x = some x := by
  have hshort : ∀ x ∈ (default : Settings).floats, ∃ n ∈ Number.ofFloat? x, n.Short := by
    decide +kernel
  intro x hx
  obtain ⟨n, hn, hshort⟩ := hshort x hx
  exact reread?_of_short hn hshort

/-- Settings are read from what is left of their file, the defaults standing in for what is gone and
each double as its number reads. -/
theorem ofJson?_partJson (s : Settings) (gone : List Omittable) :
    ofJson? (s.partJson gone) = (s.filled gone "" "").mapFloats? reread? := by
  have hunits : VolumeUnits.ofJson? (ofString s.volumeUnits.name) = some s.volumeUnits :=
    VolumeUnits.ofName?_name s.volumeUnits
  have hpolicy : AreaPolicy.ofJson? (ofString s.areaPolicy.name) = some s.areaPolicy :=
    AreaPolicy.ofName?_name s.areaPolicy
  have hreaming : optional? (default : Settings).reaming Config.ofJson?
      (member gone .reaming (s.reaming.partJson gone)) =
        (s.filled gone "" "").reaming.mapFloats? reread? := by
    rw [optional?_member, Config.ofJson?_partJson, filled, apply_ite (Config.mapFloats? reread?)]
    refine ite_congr rfl (fun _ => (Config.mapFloats?_eq_self.mpr fun x hx => ?_).symm) fun _ => rfl
    exact reread?_default x (List.mem_append_left _ hx)
  have hfloor : optional? (default : Settings).floorHeight float?
      (member gone .floorHeight (ofFloat s.floorHeight)) =
        reread? (s.filled gone "" "").floorHeight := by
    rw [optional?_member, filled, apply_ite reread?]
    refine ite_congr rfl (fun _ => (reread?_default _ ?_).symm) fun _ => rfl
    exact List.mem_append_right _ List.mem_cons_self
  unfold ofJson?
  rw [fields?_partJson]
  simp only [Option.bind_eq_bind, Option.bind_some, hreaming, hfloor, optional?_member, hunits,
    hpolicy, ← apply_ite some]
  rfl

/-- The text of a settings file brings back everything as it was, but each double as its number
reads. -/
theorem ofFileText?_fileText (s : Settings) :
    ofFileText? s.fileText = s.mapFloats? reread? := by
  rw [ofFileText?, fileText, ← partJson_nil, read?_pretty (s.plain_partJson [])]
  exact s.ofJson?_partJson []

end Settings

end Reaming
