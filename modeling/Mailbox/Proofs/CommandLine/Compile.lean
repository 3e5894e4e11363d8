import Mathlib.Data.List.Basic
import Mailbox.Proofs.CommandLine.Run
import Mailbox.Proofs.Files.Disk
import Mailbox.Proofs.Image.ObjectFile
set_option autoImplicit false

/-!
# Compiling a file

A source is loaded by assembling it, its object file by decoding the words.  Main statement: both
ways give the same image, so compiling changes nothing about a run; it changes no file but the
object file, and none at all when the source does not assemble.

Normative source: SPEC_FULL.md, section A6.5.
-/

namespace Mailbox

namespace Disk

variable {disk : Disk}

theorem load_lmc {prog : String} (hname : Path.lastPiece prog ≠ "") :
    disk.load (prog ++ ".lmc") = disk.loadSource (prog ++ ".lmc") := by
  have hext : Path.extension? (prog ++ ".lmc") = some "lmc" := by
    rw [Path.append_lmc, Path.extension?_append .lmc hname]
  rw [load, hext]
  rfl

theorem load_lmo {stem : String} (hname : Path.lastPiece stem ≠ "") :
    disk.load (stem ++ ".lmo") = disk.loadObject (stem ++ ".lmo") := by
  have hext : Path.extension? (stem ++ ".lmo") = some "lmo" := by
    rw [Path.append_lmo, Path.extension?_append .lmo hname]
  rw [load, hext]
  rfl

theorem loadObject_of_read {path : String} {image : Image}
    (h : disk.read path = .ok image.toObject) :
    disk.loadObject path = .ok ⟨image, .empty, image.usedLength⟩ := by
  simp only [loadObject, h, Image.ofObject_toObject]

/-- A source is loaded for what is read under its path, on whatever disk. -/
theorem exists_read_of_loadSource {path : String} {program : Program}
    (h : disk.loadSource path = .ok program) :
    ∃ content, disk.read path = .ok content ∧
      ∀ after : Disk, after.read path = .ok content → after.loadSource path = .ok program := by
  cases hcontent : disk.read path with
  | error fault => rw [loadSource, hcontent] at h; cases h
  | ok content =>
    refine ⟨content, rfl, ?_⟩
    intro after hafter
    rw [loadSource, hcontent] at h
    rw [loadSource, hafter]
    exact h

end Disk

/-! ## What is written -/

/-- The path of the object file that a source is compiled to: the one that is asked for, or
`prog.lmo` for the source `prog.lmc`. -/
inductive ObjectPath (source : String) : Option String → String → Prop
  | given (object : String) : ObjectPath source (some object) object
  | same {prog : String} : source = prog ++ ".lmc" → Path.lastPiece prog ≠ "" →
      Path.lastPiece prog ≠ "." → ObjectPath source none (prog ++ ".lmo")

section

variable {disk : Disk} {source object prog stem : String} {destination : Option String}

theorem ObjectPath.getD_eq (h : ObjectPath source destination object) :
    destination.getD (Path.withExtension source "lmo") = object := by
  cases h with
  | given => rfl
  | same hsource hname hdot =>
    rw [hsource, Option.getD_none, Path.append_lmc,
      Path.withExtension_append .lmc .lmo hname hdot, Path.append_lmo]

theorem executeCompile_of_error {error : Diagnostic} (h : disk.loadSource source = .error error) :
    executeCompile disk source destination =
      .failure disk (fileNotice "Assembling" source) error := by
  simp only [executeCompile, h]

variable {program : Program}

theorem executeCompile_of_create_error (hobject : ObjectPath source destination object)
    (h : disk.loadSource source = .ok program) {fault : FileFault}
    (hcreate : disk.create object = .error fault) :
    executeCompile disk source destination =
      .failure disk (fileNotice "Assembling" source) (.file fault) := by
  simp only [executeCompile, h, hobject.getD_eq, hcreate]

variable {place : Place} {created : Disk}

theorem executeCompile_of_fill_error (hobject : ObjectPath source destination object)
    (h : disk.loadSource source = .ok program) (hcreate : disk.create object = .ok (place, created))
    {fault : FileFault} (hfill : (created.fill place program.image.toObject).fault? = some fault) :
    executeCompile disk source destination =
      .failure (created.fill place program.image.toObject).disk (fileNotice "Assembling" source)
        (.file fault) := by
  simp only [executeCompile, h, hobject.getD_eq, hcreate, hfill]

theorem executeCompile_of_fill_ok (hobject : ObjectPath source destination object)
    (h : disk.loadSource source = .ok program) (hcreate : disk.create object = .ok (place, created))
    (hfill : (created.fill place program.image.toObject).fault? = none) :
    executeCompile disk source destination =
      .success (disk.put place (.file program.image.toObject))
        (fileNotice "Assembling" source ++ notice "Finished" "emit object" ++
          fileNotice "Saved" object) := by
  simp only [executeCompile, h, hobject.getD_eq, hcreate, hfill,
    Disk.fill_eq_of_fault?_eq_none hcreate hfill]

theorem isPlain_lastPiece_lmc (prog : String) : Path.IsPlain (Path.lastPiece (prog ++ ".lmc")) := by
  rw [Path.append_lmc, Path.lastPiece_append .lmc]
  exact Path.isPlain_append .lmc _

/-- A source is loaded as before when an object file has been written. -/
theorem loadSource_put (h : disk.loadSource (prog ++ ".lmc") = .ok program)
    (htarget : disk.target (stem ++ ".lmo") = .ok place) (content : ByteArray) :
    (disk.put place (.file content)).loadSource (prog ++ ".lmc") = .ok program := by
  obtain ⟨text, hread, hload⟩ := Disk.exists_read_of_loadSource h
  have hnames : Path.lastPiece (prog ++ ".lmc") ≠ Path.lastPiece (stem ++ ".lmo") := by
    intro heq
    rw [Path.append_lmc, Path.append_lmo, Path.lastPiece_append .lmc,
      Path.lastPiece_append .lmo] at heq
    have hlast := congrArg (fun name : String => name.toList.getLast?) heq
    simp at hlast
  exact hload _ (Disk.read_put_of_lastPiece_ne htarget (isPlain_lastPiece_lmc prog) hnames hread)

end

/-- What compiling leaves behind when its object file belongs at a place: that file and no other
change. -/
structure Compiled (disk : Disk) (object : String) (program : Program) (place : Place)
    (r : Report) : Prop where
  exit : r.exit = 0
  errors : r.errors = []
  written : ∀ other, r.disk.at? other =
    if other = place then some (.file program.image.toObject) else disk.at? other
  holds : r.disk.read object = .ok program.image.toObject

/-- Runs of an object file on a disk do not differ from runs of its source, be it on that disk or
on the one before, whatever the settings, the standard input and the options. -/
structure RunsAlike (before after : Disk) (source object : String) : Prop where
  before : ∀ settings stdin options, Report.SameButName options.minimal source object
    (executeRun ⟨before, settings, stdin⟩ source options)
    (executeRun ⟨after, settings, stdin⟩ object options)
  after : ∀ settings stdin options, Report.SameButName options.minimal source object
    (executeRun ⟨after, settings, stdin⟩ source options)
    (executeRun ⟨after, settings, stdin⟩ object options)

section

variable {disk : Disk} {program : Program} {place : Place}

theorem compiled_put {object : String} (htarget : disk.target object = .ok place)
    (text : String) :
    Compiled disk object program place
      (.success (disk.put place (.file program.image.toObject)) text) where
  exit := rfl
  errors := rfl
  written := Disk.at?_put_target htarget _
  holds := Disk.read_put_target htarget

theorem runsAlike_put {prog stem : String} (hprog : Path.lastPiece prog ≠ "")
    (hstem : Path.lastPiece stem ≠ "") (h : disk.loadSource (prog ++ ".lmc") = .ok program)
    (htarget : disk.target (stem ++ ".lmo") = .ok place) :
    RunsAlike disk (disk.put place (.file program.image.toObject)) (prog ++ ".lmc")
      (stem ++ ".lmo") := by
  have hsource := loadSource_put h htarget program.image.toObject
  have hread : (disk.put place (.file program.image.toObject)).read (stem ++ ".lmo") =
      .ok program.image.toObject := Disk.read_put_target htarget
  have hload := Disk.loadObject_of_read hread
  rw [← Disk.load_lmc hprog] at h hsource
  rw [← Disk.load_lmo hstem] at hload
  exact {
    before := fun settings stdin options => executeRun_sameButName rfl rfl h hload rfl
    after := fun settings stdin options => executeRun_sameButName rfl rfl hsource hload rfl }

end

/-- Compiling a source writes its object file and changes no other, and it changes nothing about the
runs of the source.  A source that does not assemble leaves the disk as it is; so does an object
file that cannot be made, and one that cannot be filled is the only file that may have changed. -/
theorem compile_keeps_runs (disk : Disk) (source : String) (destination : Option String) :
    let r := executeCompile disk source destination
    (∀ error, disk.loadSource source = .error error → r.exit = 1 ∧ r.disk = disk) ∧
    ∀ object program, ObjectPath source destination object →
      disk.loadSource source = .ok program →
      (∀ fault, disk.create object = .error fault →
        r.exit = 1 ∧ r.errors = [.file fault] ∧ r.disk = disk) ∧
      ∀ place created, disk.create object = .ok (place, created) →
        (∀ fault, (created.fill place program.image.toObject).fault? = some fault →
          r.exit = 1 ∧ r.errors = [.file fault] ∧
            ∀ other, other ≠ place → r.disk.at? other = disk.at? other) ∧
        ((created.fill place program.image.toObject).fault? = none →
          Compiled disk object program place r ∧
          ∀ prog stem, source = prog ++ ".lmc" → Path.lastPiece prog ≠ "" →
            object = stem ++ ".lmo" → Path.lastPiece stem ≠ "" →
            RunsAlike disk r.disk source object) := by
  intro r
  refine ⟨fun error h => ?_, fun object program hobject h => ⟨fun fault hcreate => ?_,
    fun place created hcreate => ⟨fun fault hfill => ?_, fun hfill => ?_⟩⟩⟩
  · have hr : r = .failure disk (fileNotice "Assembling" source) error :=
      executeCompile_of_error h
    rw [hr]
    exact ⟨rfl, rfl⟩
  · have hr : r = .failure disk (fileNotice "Assembling" source) (.file fault) :=
      executeCompile_of_create_error hobject h hcreate
    rw [hr]
    exact ⟨rfl, rfl, rfl⟩
  · have hr : r = .failure _ (fileNotice "Assembling" source) (.file fault) :=
      executeCompile_of_fill_error hobject h hcreate hfill
    rw [hr]
    exact ⟨rfl, rfl, fun other hother => Disk.at?_fill hcreate hother⟩
  · have hr : r = .success (disk.put place (.file program.image.toObject)) _ :=
      executeCompile_of_fill_ok hobject h hcreate hfill
    obtain ⟨htarget, -, -⟩ := Disk.create_eq_ok.1 hcreate
    rw [hr]
    refine ⟨compiled_put htarget _, ?_⟩
    rintro prog stem rfl hprog rfl hstem
    exact runsAlike_put hprog hstem h htarget

/-- The folder of the disk is locked, or the disk is full: the object file cannot be made in the one
case, and is left empty in the other. -/
theorem compile_keeps_runs_echo :
    let disk : Disk := { nodes := [(["echo.lmc"], .file "IN\nOUT\nHLT".toUTF8),
      (["bad.lmc"], .file "LDX".toUTF8)] }
    let locked : Disk := { disk with locked := [[]] }
    let full : Disk := { disk with capacity := some disk.size }
    let place : Place := ["echo.lmo"]
    let made (disk : Disk) : Disk := disk.put place (.file .empty)
    let echo : Program := ⟨Image.ofList [901, 902, 0], .empty, 3⟩
    let r (disk : Disk) := executeCompile disk "echo.lmc" none
    (disk.loadSource "bad.lmc" = .error (.assembly ⟨1, ⟨0, 3⟩, .unknownMnemonic "LDX"⟩) ∧
        (executeCompile disk "bad.lmc" none).exit = 1 ∧
        (executeCompile disk "bad.lmc" none).disk = disk) ∧
      (∀ d ∈ [disk, locked, full], d.loadSource "echo.lmc" = .ok echo) ∧
      (locked.create "echo.lmo" = .error .denied ∧
        (r locked).errors = [.file .denied] ∧ (r locked).disk = locked) ∧
      (full.create "echo.lmo" = .ok (place, made full) ∧
        ((made full).fill place echo.image.toObject).fault? = some .noSpace ∧
        (r full).errors = [.file .noSpace] ∧ (r full).disk = made full ∧
        (r full).disk.at? ["echo.lmc"] = full.at? ["echo.lmc"]) ∧
      disk.create "echo.lmo" = .ok (place, made disk) ∧
        ((made disk).fill place echo.image.toObject).fault? = none ∧
        Compiled disk "echo.lmo" echo place (r disk) ∧
        RunsAlike disk (r disk).disk "echo.lmc" "echo.lmo" := by
  intro disk locked full place made echo r
  have hbad : disk.loadSource "bad.lmc" =
      .error (.assembly ⟨1, ⟨0, 3⟩, .unknownMnemonic "LDX"⟩) := by decide +kernel
  have hecho : ∀ d ∈ [disk, locked, full], d.loadSource "echo.lmc" = .ok echo := by decide +kernel
  have hlocked : locked.create "echo.lmo" = .error .denied := by decide +kernel
  have hfull : full.create "echo.lmo" = .ok (place, made full) := by decide +kernel
  have hshort : ((made full).fill place echo.image.toObject).fault? = some .noSpace := by
    decide +kernel
  have hleft : (r full).disk = made full := by decide +kernel
  have hcreate : disk.create "echo.lmo" = .ok (place, made disk) := by decide +kernel
  have hfill : ((made disk).fill place echo.image.toObject).fault? = none := by decide +kernel
  have hname : Path.lastPiece "echo" ≠ "" := by decide +kernel
  have hobject : ObjectPath "echo.lmc" none "echo.lmo" := .same rfl hname (by decide +kernel)
  have hruns (d : Disk) (hd : d ∈ [disk, locked, full]) :=
    (compile_keeps_runs d "echo.lmc" none).2 _ echo hobject (hecho d hd)
  obtain ⟨-, hdenied, hsame⟩ := (hruns locked (by simp)).1 .denied hlocked
  obtain ⟨-, hspace, hother⟩ := ((hruns full (by simp)).2 place _ hfull).1 .noSpace hshort
  obtain ⟨hcompiled, halike⟩ := ((hruns disk (by simp)).2 place _ hcreate).2 hfill
  exact ⟨⟨hbad, (compile_keeps_runs disk "bad.lmc" none).1 _ hbad⟩, hecho,
    ⟨hlocked, hdenied, hsame⟩, ⟨hfull, hshort, hspace, hleft, hother _ (by decide +kernel)⟩,
    hcreate, hfill, hcompiled, halike "echo" "echo" rfl hname rfl hname⟩

/-- Sources that assemble whose object files are not written, or not run like them: the folder of
the object file is missing or locked, the disk is full, a folder stands in the place of the object
file, the name before the extension is a single dot, or there is no name before the extension of
the object file or of the source. -/
theorem compile_exceptions :
    let source := "IN\nOUT\nHLT".toUTF8
    let disk : Disk := { nodes := [(["p.lmc"], .file source), (["q.lmc"], .file source),
      (["q.lmo", "x"], .file source), (["..lmc"], .file source), ([".lmc"], .file source)] }
    let locked : Disk := { disk with locked := [[]] }
    let full : Disk := { disk with capacity := some disk.size }
    let echo : Program := ⟨Image.ofList [901, 902, 0], .empty, 3⟩
    let run (disk : Disk) (path : String) := executeRun ⟨disk, ⟨false, none⟩, "7\n".toUTF8⟩ path
      ⟨none, true, false, none⟩
    (∀ path ∈ ["p.lmc", "q.lmc", "..lmc", ".lmc"], disk.loadSource path = .ok echo) ∧
      executeCompile disk "p.lmc" (some "out/p.lmo") =
        .failure disk (fileNotice "Assembling" "p.lmc") (.file .notFound) ∧
      executeCompile locked "p.lmc" none =
        .failure locked (fileNotice "Assembling" "p.lmc") (.file .denied) ∧
      executeCompile full "p.lmc" none =
        .failure (full.put ["p.lmo"] (.file .empty)) (fileNotice "Assembling" "p.lmc")
          (.file .noSpace) ∧
      executeCompile disk "q.lmc" none =
        .failure disk (fileNotice "Assembling" "q.lmc") (.file .isFolder) ∧
      executeCompile disk "..lmc" none =
        .failure disk (fileNotice "Assembling" "..lmc") (.file .isFolder) ∧
      (run disk "p.lmc").errors = [] ∧
      (run (executeCompile disk "p.lmc" (some ".lmo")).disk ".lmo").errors = [.noExtension] ∧
      (executeCompile disk ".lmc" none).disk.read ".lmo" = .error .notFound ∧
      (run disk ".lmc").errors = [.noExtension] ∧
      (run (executeCompile disk ".lmc" none).disk ".lmc.lmo").errors = [] := by
  decide +kernel

end Mailbox
