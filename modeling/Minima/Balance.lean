/-
The sections without interrupts of the kernel, function by function.

Every function that uses `cli_push`, and every function that these call, is written in
the language of `Sections`: its tests, its calls and its returns, in the order of the
source.  What the tests look at is not modelled here, so that a result about all
outcomes of the tests is one about all states and all results of calls.

* `Fn`, `body` — the functions;
* `good_body` — all of them pass the check, if it is a debt when a purge has not freed
  a page or when the task that is waited for does not exist;
* `balanced_iff` — a call gives back depth and interrupt flag iff neither has come up.
-/
import Minima.Sections

open Interrupts Sections

namespace Balance

/-! ### Tests and functions -/

/-- The tests of the functions below. -/
inductive Test
  /-- `!page_freelist` -/
  | freelistEmpty
  /-- `purged >= PAGE_SIZE` -/
  | purgedAPage
  /-- `page_freelist`, or the next of its frames -/
  | frameLeft
  /-- the `cmpxchg` of `page_freelist` has found the old value -/
  | freelistSwapped
  /-- `show_regions` -/
  | showRegions
  /-- another `phys_region` -/
  | moreRegions
  /-- `s->count` -/
  | countPositive
  /-- the `cmpxchg` of `s->count` has found the old value -/
  | countSwapped
  /-- `v_ilist_is_empty(&s->waiters)` -/
  | noWaiters
  /-- another chunk size -/
  | moreSizes
  /-- another slab of the size -/
  | moreSlabs
  /-- the last free chunk of a slab for metas -/
  | lastOfHost
  /-- `m->free_slots` -/
  | slabHasFree
  /-- another chunk of the page -/
  | moreChunks
  /-- `m->slab` is the page of `ptr` -/
  | slabOfPtr
  /-- all slots of the slab are free -/
  | slabEmpty
  /-- another region to purge, and too little purged -/
  | morePurgeable
  /-- `p->linkage` is not the head of the list -/
  | regionLinked
  /-- `!p->buf` -/
  | bufPurged
  /-- `!ptr` -/
  | ptrNull
  /-- `addr >= PFA_VIRT_OFFSET` -/
  | ptrInWindow
  /-- another area of a list -/
  | moreAreas
  /-- the area of `vmfree`, `fit` of `find_space`, `vma` of `vmalloc` -/
  | areaFound
  /-- `fit->size > pages * PAGE_SIZE` -/
  | areaLarger
  /-- another page of the area -/
  | morePages
  /-- another page table of the area -/
  | moreTables
  /-- `(*pde) & PTE_PRESENT` -/
  | tablePresent
  /-- `(*pte) & PTE_PRESENT` -/
  | pagePresent
  /-- another entry of the page table, if those so far are 0 -/
  | moreEntries
  /-- `empty` -/
  | tableEmpty
  /-- the assertions of `v_ilist_insert` and `assert_invariants` -/
  | areasInOrder
  /-- the area before, or after, is not the head of the list and `vma_merge` succeeds -/
  | mergesWithPrev
  | mergesWithNext
  /-- `task_id >= 1` -/
  | tidPositive
  /-- `!current->wait_retval` -/
  | retvalClear
  /-- another task of the run queue, or of the waiters of a task -/
  | moreTasks
  | moreWaiters
  /-- `waitee` -/
  | waiteeFound
  /-- `t->state == ts_stopping` -/
  | isStopping
  /-- `t != current` -/
  | isAnother
  /-- `t->stack_user`, `t->files` -/
  | hasUserStack
  | hasFiles
  /-- `t->k_esp < t->redzone_top` -/
  | overflowed
  /-- `DEBUG_TASK_START_STOP` -/
  | debugTasks
  /-- `t->state == ts_wait_task || t->state == ts_wait_semaphore` -/
  | isWaiting
  /-- `g_terminal_initialized` -/
  | terminalReady
  /-- `!fmt` -/
  | fmtNull
  /-- another character to print -/
  | moreChars
  | isNewline
  | isReturn
  | isTab
  | isBackspace
  /-- another of the blanks of a tab -/
  | moreBlanks
  /-- `!g_col`, `!g_row` -/
  | colZero
  | rowZero
  /-- `++g_col == TERM_WIDTH`, `++g_row == TERM_HEIGH` -/
  | lineFull
  | screenFull
  /-- `serial` -/
  | toSerial
  /-- `serial_out == serial_buffer` -/
  | serialBuffered
  /-- `s_serial_enabled` -/
  | serialEnabled
  /-- the transmitter is not ready -/
  | serialBusy
  /-- another row, or column, of the screen -/
  | moreRows
  | moreCols
deriving DecidableEq

/-- The functions; `reaperSweep` is one round of the loop of `reaper`. -/
inductive Fn
  | pfAlloc
  | pfZalloc
  | pfFree
  | pfaCountFreePages
  | dumpPhysMemStats
  | semPend
  | semPost
  | prepareSlab
  | grabASlab
  | doSlabAlloc
  | doSlabFree
  | slabAlloc
  | slabFree
  | memPurge
  | purgeablePurge
  | kfree
  | vmfree
  | vmUnmap
  | vmMap
  | vmaSplit
  | findSpace
  | vmalloc
  | doDefrag
  | waitTid
  | toRunqueue
  | dumpTasks
  | dumpRunningTasks
  | dumpKillReason
  | reaperSweep
  | sleep
  | kprintf
  | terminalPutchar
  | terminalScroll
  | serialOutByte
  | rbWrite

open Stmt in
/-- The functions of the source. -/
def body : Fn → Stmt Test Fn
  -- `mm/pfa.c`
  | .pfAlloc => block [
      ite .freelistEmpty (block [
        push,
        call .kprintf,
        call .purgeablePurge,
        ite .purgedAPage skip (ret false),
        call .kprintf,
        .assert .frameLeft,
        pop]) skip,
      forever (block [
        -- `old->next` of no frame is a fault
        .assert .frameLeft,
        ite .freelistSwapped (ret true) skip])]
  | .pfZalloc => block [
      branch .pfAlloc skip (ret false),
      ret true]
  | .pfFree => forever (ite .freelistSwapped (ret true) skip)
  | .pfaCountFreePages => block [
      push,
      .while .frameLeft skip,
      pop,
      ret true]
  | .dumpPhysMemStats => block [
      .while .moreRegions skip,
      ite .showRegions (call .kprintf) skip,
      push,
      .while .frameLeft (.while .moreRegions skip),
      pop,
      .while .moreRegions (ite .showRegions (call .kprintf) skip),
      ite .showRegions (call .kprintf) skip,
      call .kprintf]
  -- `sync.c`
  | .semPend => forever (block [
      -- two tries
      ite .countPositive (ite .countSwapped (ret true) skip) skip,
      ite .countPositive (ite .countSwapped (ret true) skip) skip,
      push,
      sched,
      pop])
  | .semPost => ite .noWaiters skip skip
  -- `mm/slab.c`
  | .prepareSlab => block [
      -- `chunk_put` into no page is a fault
      branch .pfAlloc skip halt,
      .while .moreChunks skip]
  | .grabASlab => block [
      call .doSlabAlloc,
      call .prepareSlab,
      ret true]
  | .doSlabAlloc => block [
      .while .moreSlabs (block [
        ite .lastOfHost (block [call .prepareSlab, ret true]) skip,
        ite .slabHasFree (ret true) skip]),
      call .grabASlab,
      ret true]
  | .doSlabFree => .while .moreSizes (.while .moreSlabs
      (ite .slabOfPtr (block [
        ite .slabEmpty (block [call .pfFree, call .doSlabFree]) skip,
        ret true]) skip))
  | .slabAlloc => block [
      call .semPend,
      call .doSlabAlloc,
      call .semPost,
      ret true]
  | .slabFree => block [
      call .semPend,
      call .doSlabFree,
      call .semPost]
  -- `mm/purge.c`; the `on_purge` of the source have no sections
  | .memPurge => block [
      .assert .regionLinked,
      call .semPend,
      ite .bufPurged (block [call .semPost, ret false]) skip,
      call .kfree,
      call .semPost,
      ret true]
  | .purgeablePurge => block [
      call .semPend,
      .while .morePurgeable (call .memPurge),
      call .semPost,
      ret true]
  -- `kmalloc.c`
  | .kfree => block [
      ite .ptrNull (ret true) skip,
      ite .ptrInWindow (call .slabFree) (call .vmfree)]
  -- `mm/vma.c`
  | .vmfree => block [
      .while .moreAreas skip,
      .assert .areaFound,
      call .vmUnmap,
      call .semPost]
  | .vmUnmap => block [
      .while .morePages (block [
        .assert .tablePresent,
        .assert .pagePresent,
        call .pfFree]),
      .while .moreTables (block [
        .while .moreEntries skip,
        ite .tableEmpty (call .pfFree) skip])]
  | .vmMap => .while .morePages (block [
      -- a page table at address 0 is a fault
      ite .tablePresent skip (branch .pfZalloc skip halt),
      ite .pagePresent skip (call .pfZalloc)])
  | .vmaSplit => block [
      call .slabAlloc,
      ret true]
  | .findSpace => block [
      .while .moreAreas skip,
      ite .areaFound skip halt,
      ite .areaLarger (call .vmaSplit) skip,
      ret true]
  | .vmalloc => block [
      push,
      call .findSpace,
      pop,
      ite .areaFound skip halt,
      call .vmMap,
      ret true]
  | .doDefrag => block [
      push,
      .while .moreAreas (.assert .areasInOrder),
      .while .moreAreas (block [
        .assert .areasInOrder,
        ite .mergesWithPrev (call .slabFree)
          (ite .mergesWithNext (call .slabFree) skip)]),
      pop]
  -- `sched.c`
  | .waitTid => block [
      ite .tidPositive skip (ret false),
      push,
      .assert .retvalClear,
      .while .moreTasks skip,
      ite .waiteeFound skip (ret false),
      sched,
      pop,
      ret true]
  | .toRunqueue => block [
      push,
      pop]
  | .dumpTasks => block [
      .while .moreTasks (block [
        call .kprintf,
        ite .isWaiting (call .kprintf) (call .terminalPutchar)]),
      call .terminalPutchar]
  | .dumpRunningTasks => block [
      push,
      call .dumpTasks,
      pop]
  | .dumpKillReason => ite .overflowed (call .kprintf) (ite .debugTasks (call .kprintf) skip)
  | .reaperSweep => block [
      call .semPend,
      push,
      .while .moreTasks (ite .isStopping (block [
        .assert .isAnother,
        call .dumpKillReason,
        .while .moreWaiters skip,
        ite .hasUserStack (call .kfree) skip,
        ite .hasFiles (call .kfree) skip,
        call .kfree,
        call .kfree]) skip),
      pop]
  -- `timer.c`
  | .sleep => block [
      push,
      sched,
      pop]
  -- `kprintf.c` and `terminal.c`
  | .kprintf => block [
      ite .terminalReady skip halt,
      ite .fmtNull (ret true) skip,
      .while .moreChars (call .terminalPutchar)]
  | .terminalPutchar => block [
      ite .isNewline (ite .screenFull (call .terminalScroll) skip)
        (ite .isReturn skip
        (ite .isTab (.while .moreBlanks (call .terminalPutchar))
        (ite .isBackspace (block [
          ite .colZero (ite .rowZero (ret true) skip) skip,
          ite .toSerial (call .serialOutByte) skip])
        (ite .lineFull (ite .screenFull (call .terminalScroll) skip) skip)))),
      ite .toSerial (call .serialOutByte) skip]
  | .terminalScroll => block [
      push,
      .while .moreRows (.while .moreCols skip),
      pop]
  -- `serial_debug.c` and `lib/ringbuf.c`
  | .serialOutByte => ite .serialBuffered (call .rbWrite)
      (ite .serialEnabled (.while .serialBusy skip) skip)
  | .rbWrite => block [
      call .semPend,
      call .semPend,
      call .semPost,
      call .semPost]

/-! ### The result -/

/-- The returns that leave a section open: that of `pf_alloc` when the purge has not
freed a page, and that of `wait_tid` when the task does not exist. -/
def debt : Test → Bool → ℕ
  | .purgedAPage, false => 1
  | .waiteeFound, false => 1
  | _, _ => 0

theorem good_body (f : Fn) : good debt (body f) = true := by
  cases f <;> decide

variable {v v' : View} {r : List (Test × Bool)} {o : Outcome}

theorem debt_eq_zero {q : Test} {b : Bool} :
    debt q b = 0 ↔ (q, b) ≠ (.purgedAPage, false) ∧ (q, b) ≠ (.waiteeFound, false) := by
  cases b with
  | true => cases q <;> simp [debt]
  | false => cases q <;> simp [debt]

theorem weight_eq_zero :
    weight debt r = 0 ↔ (.purgedAPage, false) ∉ r ∧ (.waiteeFound, false) ∉ r := by
  induction r with
  | nil => simp
  | cons a r ih =>
    rw [weight_cons, Nat.add_eq_zero_iff, ih, debt_eq_zero, List.mem_cons, List.mem_cons]
    constructor
    · rintro ⟨⟨h1, h2⟩, h3, h4⟩
      exact ⟨not_or.mpr ⟨h1.symm, h3⟩, not_or.mpr ⟨h2.symm, h4⟩⟩
    · rintro ⟨h1, h2⟩
      obtain ⟨h1, h3⟩ := not_or.mp h1
      obtain ⟨h2, h4⟩ := not_or.mp h2
      exact ⟨⟨Ne.symm h1, Ne.symm h2⟩, h3, h4⟩

/-- **Sections are closed on every path but two.**  Any call that comes back is not stopped by
`cli_pop`, and leaves depth and interrupt flag as it has found them iff no purge has failed to
free a page and `wait_tid` has not missed a task. -/
theorem balanced_iff {f : Fn} (hv : v.Ok) (hexec : Exec body (body f) v r v' o) :
    ((∃ ok, o.Result ok) ∧ v'.cliDepth = v.cliDepth ∧ v'.intr = v.intr) ↔
      (.purgedAPage, false) ∉ r ∧ (.waiteeFound, false) ∉ r := by
  obtain ⟨hresult, hdeep⟩ := deeper_of_exec good_body hv hexec
  have hdepth := hdeep.depth
  rw [← weight_eq_zero]
  constructor
  · rintro ⟨-, heq, -⟩
    omega
  · intro hzero
    refine ⟨hresult, by omega, ?_⟩
    rw [hdeep.intr, if_pos hzero]

/-- Outside of all sections, with interrupts enabled. -/
def outside : View := ⟨⟨0, false⟩, true⟩

theorem outside_ok : outside.Ok := ⟨by decide, fun h => absurd h (by decide)⟩

theorem exec_findTask (v : View) : Exec body (.while .moreTasks .skip) v
    [(.moreTasks, true), (.moreTasks, false)] v .next :=
  .whileTrue (.skip) .whileFalse

/-- `wait_tid` waits for a task that is on the run queue. -/
theorem balanced_iff_waitTid : ∃ v',
    Exec body (body .waitTid) outside [(.tidPositive, true), (.retvalClear, true),
      (.moreTasks, true), (.moreTasks, false), (.waiteeFound, true)] v' (.returned true) ∧
    v'.cliDepth = 0 ∧ v'.intr = true := by
  have hret : ∀ v, Exec body (.seq (.ret true) .skip) v [] v (.returned true) :=
    fun _ => .seqStop .ret (fun h => by cases h)
  have hexec := Exec.seq (.iteTrue (q := .tidPositive) (b := .ret false) .skip) <|
    .seq (.push (v := outside)) <|
    .seq (.iteTrue (q := .retvalClear) (b := .halt) .skip) <|
    .seq (exec_findTask _) <|
    .seq (.iteTrue (q := .waiteeFound) (b := .ret false) .skip) <|
    .seq (.sched rfl) <|
    .seq (.pop rfl) (hret _)
  obtain ⟨-, hdepth, hintr⟩ := (balanced_iff (f := .waitTid) outside_ok hexec).mpr (by decide)
  exact ⟨_, hexec, hdepth, hintr⟩

/-! ### The two returns -/

/-- `kprintf` of some ordinary characters and a newline, on a screen with room, and no
serial port. -/
def printed : ℕ → List (Test × Bool)
  | 0 => [(.moreChars, true), (.isNewline, true), (.screenFull, false), (.toSerial, true),
      (.serialBuffered, false), (.serialEnabled, false), (.moreChars, false)]
  | n + 1 => [(.moreChars, true), (.isNewline, false), (.isReturn, false), (.isTab, false),
      (.isBackspace, false), (.lineFull, false), (.toSerial, true), (.serialBuffered, false),
      (.serialEnabled, false)] ++ printed n

theorem exec_serialOutByte (v : View) : Exec body (.call .serialOutByte) v
    [(.serialBuffered, false), (.serialEnabled, false)] v .next :=
  .call (.iteFalse (.iteFalse .skip)) .next

theorem exec_newline (v : View) : Exec body (.call .terminalPutchar) v [(.isNewline, true),
    (.screenFull, false), (.toSerial, true), (.serialBuffered, false), (.serialEnabled, false)] v
    .next :=
  .call (.seq (.iteTrue (.iteFalse (.skip)))
    (.seq (.iteTrue (exec_serialOutByte v)) .skip)) .next

theorem exec_plain (v : View) : Exec body (.call .terminalPutchar) v [(.isNewline, false),
    (.isReturn, false), (.isTab, false), (.isBackspace, false), (.lineFull, false),
    (.toSerial, true), (.serialBuffered, false), (.serialEnabled, false)] v .next :=
  .call (.seq (.iteFalse (.iteFalse (.iteFalse (.iteFalse (.iteFalse (.skip))))))
    (.seq (.iteTrue (exec_serialOutByte v)) .skip)) .next

theorem exec_print (n : ℕ) (v : View) :
    Exec body (.while .moreChars (.call .terminalPutchar)) v (printed n) v .next := by
  induction n with
  | zero => exact .whileTrue (exec_newline v) .whileFalse
  | succ n ih => exact .whileTrue (exec_plain v) ih

theorem exec_kprintf (n : ℕ) (v : View) : Exec body (.call .kprintf) v
    ((.terminalReady, true) :: (.fmtNull, false) :: printed n) v .next := by
  have hprint : Exec body _ v (printed n ++ []) v .next := .seq (exec_print n v) .skip
  rw [List.append_nil] at hprint
  exact .call (.seq (.iteTrue .skip) (.seq (.iteFalse (.skip)) hprint)) .next

theorem exec_semPend (v : View) : Exec body (.call .semPend) v
    [(.countPositive, true), (.countSwapped, true)] v .next := by
  have hstop : Outcome.returned true ≠ .next := fun h => by cases h
  exact .call (.foreverStop (.seqStop (.iteTrue (.iteTrue .ret)) hstop) hstop) (.returned true)

theorem exec_semPost (v : View) : Exec body (.call .semPost) v [(.noWaiters, true)] v .next :=
  .call (.iteTrue .skip) .next

theorem exec_purge (v : View) : Exec body (.call .purgeablePurge) v
    [(.countPositive, true), (.countSwapped, true), (.morePurgeable, false), (.noWaiters, true)] v
    .next := by
  have hstop : Outcome.returned true ≠ .next := fun h => by cases h
  have hexec := Exec.seq (exec_semPend v) (.seq (.whileFalse (q := .morePurgeable)
    (s := .call .memPurge)) (.seq (exec_semPost v) (.seqStop (b := .skip) .ret hstop)))
  exact .call hexec (.returned true)

/-- `wait_tid` of a task that does not exist, and `pf_alloc` without a frame to purge: both come
back with interrupts disabled and a depth of 1. -/
theorem sections_left_open :
    (∃ v', Exec body (body .waitTid) outside [(.tidPositive, true), (.retvalClear, true),
        (.moreTasks, true), (.moreTasks, false), (.waiteeFound, false)] v' (.returned false) ∧
      v'.cliDepth = 1 ∧ v'.intr = false) ∧
    ∃ v', Exec body (body .pfAlloc) outside
        ((.freelistEmpty, true) :: (.terminalReady, true) :: (.fmtNull, false) :: (printed 51 ++
          [(.countPositive, true), (.countSwapped, true), (.morePurgeable, false),
            (.noWaiters, true), (.purgedAPage, false)])) v' (.returned false) ∧
      v'.cliDepth = 1 ∧ v'.intr = false := by
  have hstop : Outcome.returned false ≠ .next := fun h => by cases h
  refine ⟨⟨outside.push, ?_, rfl, rfl⟩, outside.push, ?_, rfl, rfl⟩
  · exact .seq (.iteTrue .skip) (.seq .push (.seq (.iteTrue .skip) (.seq (exec_findTask _)
      (.seqStop (.iteFalse .ret) hstop))))
  · exact .seqStop (.iteTrue (.seq .push (.seq (exec_kprintf 51 _) (.seq (exec_purge _)
      (.seqStop (.iteFalse .ret) hstop))))) hstop

end Balance
