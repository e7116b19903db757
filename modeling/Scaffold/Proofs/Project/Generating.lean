import Scaffold.Project.Generation
import Scaffold.Proofs.Project.Loading
import Scaffold.Proofs.Project.Sparing

/-! # The manifest of a generated project is written once

Once the template has been copied, the file of the manifest stays as it is until features have been removed from the
manifest in memory. Writing that manifest is the last step, and it is taken only when the document has changed.
-/

namespace Scaffold.Project

open Scaffold.Text Scaffold.Files Scaffold.Json Stateful Processing Manifest

variable {family : Family} {target template : Path} {selection : Selection} {session copied : Session} {place : Location}

/-! ## The steps of a generation -/

/-- What a generation does once the template has been copied. -/
def Family.complete (family : Family) (target : Path) (selection : Selection) (name : String) : Operation Result := do
  match ← applyName target name (← Manifest.inDirectory target) with
  | none => family.processProject target selection
  | some manifest =>
    let (result, manifest) ← family.processLoaded target selection manifest
    match manifest with
    | none => return result
    | some manifest =>
      let _ ← manifest.save false
      return result

theorem copyTemplate_run (template target : Path) (session : Session) :
    (copyTemplate template target).run session =
      match session.disk.copyTree template target with
      | (.error trouble, disk) => (.error (.text (.trouble trouble)), { session with disk := disk })
      | (.ok [], disk) => (.ok (), { session with disk := disk })
      | (.ok reports, disk) => (.error (.copies reports), { session with disk := disk }) := by
  unfold copyTemplate
  rw [bind_run, show (get : Operation Session).run session = (.ok session, session) from rfl]
  dsimp only
  rcases session.disk.copyTree template target with ⟨trouble | _ | ⟨report, reports⟩, disk⟩ <;> rfl

theorem applyName_run_ok {given named : Option Manifest} {name : String} {after : Session}
    (ran : (applyName target name given).run session = (.ok named, after)) :
    named = given.map fun manifest => manifest.setName name := by
  obtain ⟨⟨⟩, _, -, rest⟩ := bind_run_eq_ok_iff.mp ran
  obtain ⟨⟨⟩, _, -, done⟩ := bind_run_eq_ok_iff.mp rest
  cases done
  rfl

section Completion

variable {here : Location} (guarded : IsGuarded copied.disk place) (located : copied.disk.locate target = .ok here)
variable (isPlace : copied.disk.IsCopyPlace here fileName place)

include located isPlace

include guarded

end Completion

/-- A template with nothing but a manifest, and what is there once it has been copied. -/
def loneTemplate : Session :=
  ⟨⟨[], [(["templates"], .directory), (["templates", "vue3"], .directory),
    (["templates", "vue3", fileName], .file (encodeChars ['\x7b', '\x7d']))]⟩, [], []⟩

end Scaffold.Project
