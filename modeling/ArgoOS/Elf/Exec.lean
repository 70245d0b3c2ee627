import ArgoOS.Elf.Contents

set_option autoImplicit false

/-! # What `sys_exec` reports -/

namespace ArgoOS.Elf

open Memory Machine Blocks Option
open Fs (FileSystem CString fsClose)

def sysExec (s : Loader) (path : Option CString) (current : Nat) : Option (Loader × Int) :=
  match path with
  | none => some (s, -1)
  | some path => do
    let (s, entryPoint) ← elfLoad s (some path) current
    if entryPoint < 0 then return (s, -1)
    else if current = 0 then return (s, -1)
    else
      let m ← s.machine.store (current + 12) entryPoint.toNat
      return (⟨m, s.files⟩, 0)

def AllLoaded (s : Loader) (path : Option CString) (ehdr : Elf32Ehdr) : Prop :=
  (∃ files fd, openElf s.files path = some (files, some (fd, ehdr)) ∧ ehdr.ePhnum = 0) ∨
    Completes s path ehdr

structure ExecReports (s : Loader) (path : Option CString) (current : Nat) : Prop where
  success : ∀ ehdr, AllLoaded s path ehdr → ∃ loader s' entryPoint,
    elfLoad s path current = some (loader, entryPoint) ∧ 0 ≤ entryPoint ∧
      sysExec s path current = some (s', 0) ∧
      s'.machine.load (current + 12) = some ehdr.eEntry.toNat
  failure : ∀ s', sysExec s path current = some (s', -1) → current ≠ 0 →
    s'.machine.load (current + 12) = s.machine.load (current + 12)

variable {s' : Loader} {path : Option CString} {current : Nat}

section

variable {s : Loader} {result : Int}

theorem elfLoad_result (returned : elfLoad s path current = some (s', result)) : result = -1 :=
  (elfLoad_cases returned).1

theorem sysExec_cases (returned : sysExec s path current = some (s', result)) :
    result = -1 ∧ (path = none ∧ s' = s ∨ elfLoad s path current = some (s', -1)) := by
  cases path with
  | none =>
    cases returned
    exact ⟨rfl, .inl ⟨rfl, rfl⟩⟩
  | some path =>
    obtain ⟨⟨loader, entryPoint⟩, loaded, returned⟩ := bind_eq_some_iff.mp returned
    obtain rfl := elfLoad_result loaded
    cases returned
    exact ⟨rfl, .inr loaded⟩

theorem completes_path {ehdr : Elf32Ehdr} (completes : Completes s path ehdr) : path ≠ none := by
  rintro rfl
  obtain ⟨_, _, _, _, _, opened, -⟩ := completes
  simp [openElf, Fs.fsOpen, Except.toOption] at opened

end

section

variable {m : Machine} {blocks : List Block} {tasks live : List (Nat × Nat)} {files : FileSystem}

section

variable (inv : TaskInv False m blocks tasks live)

include inv

theorem TaskInv.load_eq {m' : Machine} {blocks' : List Block}
    (inv' : TaskInv False m' blocks' tasks live) (isTask : (current, taskSize) ∈ tasks)
    (same : KeepsLive (tasks ++ live) m m') : m'.load (current + 12) = m.load (current + 12) := by
  have member := List.mem_append_left live isTask
  obtain ⟨b, inList, -, place, -⟩ := inv.held.held _ member
  have base := (inv.heap.shape.bounds b inList).1
  simp only at place
  rw [← inv'.heap.sees.load_eq _ (by omega), ← inv.heap.sees.load_eq _ (by omega)]
  exact same _ member _ (by simp) (by simp [taskSize])

theorem TaskInv.entered {m' : Machine} (isTask : (current, taskSize) ∈ tasks) (value : Nat)
    (stored : m.store (current + 12) value = some m') : m'.load (current + 12) = some value := by
  obtain ⟨b, inList, -, place, fits⟩ := inv.held.held _ (List.mem_append_left live isTask)
  simp only [taskSize] at place fits
  obtain ⟨-, ok', written⟩ := inv.heap.storeWord b inList _ _ (by omega)
    (by simp only [Block.stop]; omega) stored
  exact ok'.sees.load _ written

theorem elfLoad_entry (met : ∀ files' fd ehdr, openElf files path = some (files', some (fd, ehdr)) →
      ehdr.phdrSize ≠ 0 → ElfApart m files' fd ehdr) (isTask : (current, taskSize) ∈ tasks)
    (notNull : current ≠ 0) {result : Int}
    (returned : elfLoad ⟨m, files⟩ path current = some (s', result)) :
    (∀ ehdr, Completes ⟨m, files⟩ path ehdr →
      s'.machine.load (current + 12) = some ehdr.eEntry.toNat) ∧
    ((¬ ∃ ehdr, Completes ⟨m, files⟩ path ehdr) →
      s'.machine.load (current + 12) = m.load (current + 12)) := by
  obtain ⟨m3, blocks3, inv3, -, same3, entered, unchanged⟩ := (elfLoad_cases returned).2.effect inv met
  refine ⟨fun ehdr completes => TaskInv.entered inv3 isTask _ (entered ehdr completes notNull),
    fun none => ?_⟩
  rw [unchanged fun ehdr completes => absurd ⟨ehdr, completes⟩ none]
  exact TaskInv.load_eq inv inv3 isTask same3

end

end

section

def firstTask : TaskRequest := ⟨0x110000, some [], 1, 0x100400⟩

theorem firstTask_met : LoadsApart ⟨plainMachine, [], []⟩ (.page (.mem (.taskCreate firstTask))) := by
  refine fun _ => ⟨fun none => absurd none (by decide +kernel), ?_⟩
  intro m1 task allocated _ page pmm frame
  have low : (kmalloc plainMachine taskSize).all (fun r =>
      tableFrameLow (takeTaskId r.1).frameState (stackAddress (takeTaskId r.1).nextTaskId)) = true := by
    decide +kernel
  rw [allocated] at low
  exact tableLow_of_below (m := (takeTaskId m1).withPmm pmm) (tablesBelow_single low page pmm frame).1

theorem boot_firstLoad : ∃ m ehdr loader,
    Stepper.Run loadStep LoadsApart ⟨plainMachine, [], []⟩ [heapBase + 16]
      ⟨m, [(heapBase + 16, taskSize)], []⟩ ∧
    LoadsApart ⟨m, [(heapBase + 16, taskSize)], []⟩ (.elfLoad
      (imageFile 0x8000010 ⟨ptLoad, 84, 0x8000010, 4, 8⟩) programPath (heapBase + 16)) ∧
    Completes ⟨m, imageFile 0x8000010 ⟨ptLoad, 84, 0x8000010, 4, 8⟩⟩ programPath ehdr ∧
    ehdr.eEntry = 0x8000010 ∧ m.load (heapBase + 16 + 12) = some 0x100400 ∧
    elfLoad ⟨m, imageFile 0x8000010 ⟨ptLoad, 84, 0x8000010, 4, 8⟩⟩ programPath (heapBase + 16) =
      some (loader, -1) := by
  have evaluated : (taskCreate plainMachine firstTask).any (fun r => r.2 = heapBase + 16 ∧
      r.1.load (heapBase + 16 + 12) = some 0x100400 ∧
      tableReads r.1 (imageFile 0x8000010 ⟨ptLoad, 84, 0x8000010, 4, 8⟩) (heapBase + 32 + taskSize)
        (fun _ fd ehdr bytes m1 s1 => onePageApart r.1 ⟨ptLoad, 84, 0x8000010, 4, 8⟩ ehdr bytes m1 &&
          ehdr.eEntry = 0x8000010 &&
          (loadSegments fd (heapBase + 32 + taskSize) ehdr.ePhnum 0 s1).any fun s =>
            s.2 && (kfree s.1.machine (heapBase + 32 + taskSize)).any fun m =>
              (m.store (heapBase + 16 + 12) ehdr.eEntry.toNat).isSome) = true) = true := by
    decide +kernel
  obtain ⟨⟨m, task⟩, created, all⟩ := (any_eq_true _ _).mp evaluated
  obtain ⟨rfl, eip, reads⟩ := of_decide_eq_true all
  obtain ⟨files, fd, ehdr, bytes, m1, s1, table, delivered, request, read, passed⟩ :=
    tableRead_of_reads (by decide) reads
  simp only [Bool.and_eq_true, decide_eq_true_eq] at passed
  obtain ⟨⟨apart, isEntry⟩, loads⟩ := passed
  obtain ⟨⟨s2, loaded⟩, segments, loads⟩ := (any_eq_true _ _).mp loads
  simp only [Bool.and_eq_true] at loads
  obtain ⟨rfl, loads⟩ := loads
  obtain ⟨m2, freed, stores⟩ := (any_eq_true _ _).mp loads
  obtain ⟨m3, stored⟩ := isSome_iff_exists.mp stores
  have program : loadProgram ⟨m1, files⟩ fd ehdr (heapBase + 32 + taskSize) = some (s2, true) := by
    have nonempty := table.nonempty
    rw [loadProgram, read]
    simp only [bind_eq_bind, bind_some, segments]
    exact if_neg (by omega)
  refine ⟨m, ehdr, ⟨m3, (fsClose s2.files fd).1⟩, ?_, table.loadsApart delivered request apart _ _ _,
    ⟨files, fd, m1, _, s2, table.opened, request, by decide, program⟩, isEntry, eip, ?_⟩
  · refine Stepper.Run.step [] _ _ _ [heapBase + 16] .refl firstTask_met ?_
    simp only [loadStep, pageStep, memStep, created, bind_eq_bind, bind_some]
    rfl
  · simp only [elfLoad, table.opened, request, program, freed, stored, bind_eq_bind,
      bind_some, if_neg table.notNull, ne_eq, true_and]
    rfl

end

theorem exec_reports_iff (config : BootConfig) (m : Machine) (booted : boot config = some m)
    (history : List Nat) (state : MemState)
    (run : Stepper.Run loadStep LoadsApart ⟨m, [], []⟩ history state) (files : FileSystem)
    (path : Option CString) (current : Nat)
    (isTask : current = 0 ∨ (current, taskSize) ∈ state.tasks)
    (met : LoadsApart state (.elfLoad files path current)) :
    (∀ s' result, elfLoad ⟨state.machine, files⟩ path current = some (s', result) → result = -1) ∧
    (∀ s' result, sysExec ⟨state.machine, files⟩ path current = some (s', result) → result = -1) ∧
    (ExecReports ⟨state.machine, files⟩ path current ↔
      ¬ ∃ ehdr, AllLoaded ⟨state.machine, files⟩ path ehdr) ∧
    ∀ ehdr, Completes ⟨state.machine, files⟩ path ehdr → current ≠ 0 → ∀ s' result,
      sysExec ⟨state.machine, files⟩ path current = some (s', result) →
        s'.machine.load (current + 12) = some ehdr.eEntry.toNat := by
  have entry : ∀ s' result, current ≠ 0 →
      elfLoad ⟨state.machine, files⟩ path current = some (s', result) →
      (∀ ehdr, Completes ⟨state.machine, files⟩ path ehdr →
        s'.machine.load (current + 12) = some ehdr.eEntry.toNat) ∧
      ((¬ ∃ ehdr, Completes ⟨state.machine, files⟩ path ehdr) →
        s'.machine.load (current + 12) = state.machine.load (current + 12)) := by
    intro s' result notNull returned
    cases run_loadInv booted run with
    | noHeap none ok tasks live => simp [notNull, tasks] at isTask
    | heap blocks inv =>
      exact elfLoad_entry inv met (isTask.resolve_left notNull) notNull returned
  refine ⟨fun s' result returned => elfLoad_result returned,
    fun s' result returned => (sysExec_cases returned).1, ⟨?_, fun none => ⟨?_, ?_⟩⟩, ?_⟩
  · rintro reports ⟨ehdr, loaded⟩
    obtain ⟨_, _, entryPoint, returned, positive, -⟩ := reports.success ehdr loaded
    rw [elfLoad_result returned] at positive
    exact absurd positive (by decide)
  · intro ehdr loaded
    exact absurd ⟨ehdr, loaded⟩ none
  · intro s' returned notNull
    rcases (sysExec_cases returned).2 with ⟨-, rfl⟩ | loaded
    · rfl
    · exact (entry s' _ notNull loaded).2 fun ⟨ehdr, completes⟩ => none ⟨ehdr, .inr completes⟩
  · intro ehdr completes notNull s' result returned
    rcases (sysExec_cases returned).2 with ⟨noPath, -⟩ | loaded
    · exact absurd noPath (completes_path completes)
    · exact (entry s' _ notNull loaded).1 ehdr completes

theorem exec_reports_missing : ∃ m history state, boot plainConfig = some m ∧
    Stepper.Run loadStep LoadsApart ⟨m, [], []⟩ history state ∧
    (heapBase + 16, taskSize) ∈ state.tasks ∧
    LoadsApart state (.elfLoad Fs.bootState programPath (heapBase + 16)) ∧
    ExecReports ⟨state.machine, Fs.bootState⟩ programPath (heapBase + 16) := by
  obtain ⟨m, -, -, run, -⟩ := boot_firstLoad
  have refused : ∀ files fd ehdr, openElf Fs.bootState programPath ≠ some (files, some (fd, ehdr)) := by
    intro files fd ehdr
    have none : (openElf Fs.bootState programPath).all (·.2.isNone) = true := by decide +kernel
    intro opened
    simp [opened] at none
  have met : LoadsApart ⟨m, [(heapBase + 16, taskSize)], []⟩
      (.elfLoad Fs.bootState programPath (heapBase + 16)) :=
    fun files fd ehdr opened => absurd opened (refused files fd ehdr)
  refine ⟨_, _, _, plain_boot, run, List.mem_cons_self, met, ?_⟩
  refine (exec_reports_iff plainConfig _ plain_boot _ _ run Fs.bootState programPath
    (heapBase + 16) (.inr List.mem_cons_self) met).2.2.1.mpr ?_
  rintro ⟨ehdr, ⟨files, fd, opened, -⟩ | ⟨files, fd, _, _, _, opened, -⟩⟩
  · exact refused files fd ehdr opened
  · exact refused files fd ehdr opened

-- The program is in memory and the task is sent there, and `sys_exec` says that it failed.
theorem exec_fails_after_load : ∃ m history state ehdr loader, boot plainConfig = some m ∧
    Stepper.Run loadStep LoadsApart ⟨m, [], []⟩ history state ∧
    (heapBase + 16, taskSize) ∈ state.tasks ∧
    Completes ⟨state.machine, imageFile 0x8000010 ⟨ptLoad, 84, 0x8000010, 4, 8⟩⟩ programPath ehdr ∧
    ehdr.eEntry = 0x8000010 ∧
    elfLoad ⟨state.machine, imageFile 0x8000010 ⟨ptLoad, 84, 0x8000010, 4, 8⟩⟩ programPath
      (heapBase + 16) = some (loader, -1) ∧
    sysExec ⟨state.machine, imageFile 0x8000010 ⟨ptLoad, 84, 0x8000010, 4, 8⟩⟩ programPath
      (heapBase + 16) = some (loader, -1) ∧
    state.machine.load (heapBase + 16 + 12) = some 0x100400 ∧
    loader.machine.load (heapBase + 16 + 12) = some 0x8000010 := by
  obtain ⟨m, ehdr, loader, run, met, completes, isEntry, before, returned⟩ := boot_firstLoad
  cases run_loadInv plain_boot run with
  | noHeap none ok tasks live => contradiction
  | heap blocks inv =>
    have entered := (elfLoad_entry inv met List.mem_cons_self (by decide) returned).1 ehdr completes
    rw [isEntry] at entered
    refine ⟨_, _, _, ehdr, loader, plain_boot, run, List.mem_cons_self, completes, isEntry, returned, ?_,
      before, entered⟩
    simp only [programPath] at returned
    simp only [sysExec, programPath, returned, Option.bind_eq_bind, Option.bind_some]
    rfl

end ArgoOS.Elf
