import Zeos.Interrupts
import Zeos.Machine.Pic

/-!
# Interrupts at the controllers (`bootsect.S`, `hardware.c`, `entry.S`)

The boot sector programs the two controllers, `enable_int` opens the lines of the clock
and the keyboard, and a handler reports the end of its service with `EOI`.  A handler runs
with interrupts disabled, and devices request interrupts at any time.

`pic_run` says what comes of it, in whatever state the BIOS leaves the controllers: the
processor gets the vectors of the two handlers and no others, as if there were nothing but
a flag for the clock and one for the keyboard.  `pic_clock_served` says that no request of
the clock waits longer than for the handler that is running.  Both are about runs in which
no program writes to the controllers, which `silenced_run` shows to be possible.

The hypothesis on the boot (`hboot`) is that the writes to the controllers are those of
the boot sector and `enable_int`, in order, with any requests of the devices between them;
it is read off the code and not assumed of it.  A handler is served in a row of steps, its
`EOI` among them, and devices may request at any of them; nothing else is served before it
is back, since interrupts are off.  The clock is on line 0 and so before the keyboard:
that is why its bound needs no assumption on how often a key is pressed.
-/

namespace Zeos

open Machine

/-! ## The words that are sent -/

/-- Port and word, for each `out` of the boot sector. -/
def remapPics : List (Byte × Byte) :=
  [(0x20, 0x11), (0xa0, 0x11), (0x21, 0x20), (0xa1, 0x28), (0x21, 0x04), (0xa1, 0x02),
   (0x21, 0x01), (0xa1, 0x01), (0xa1, 0xff), (0x21, 0xfb)]

/-- `enable_int`. -/
def enableInt : List (Byte × Byte) := [(0x21, 0xfc)]

/-- What code without jumps sends, with `al` at its beginning. -/
def portWrites (al : Byte) : Code → List (Byte × Byte)
  | [] => []
  | .movbAl v :: is => portWrites v is
  | .outb port :: is => (port, al) :: portWrites al is
  | _ :: is => portWrites al is

/-- What the handler of a vector sends, of those that `setIdt` sets for interrupts. -/
def handlerWrites (v : Byte) : List (Byte × Byte) :=
  if v = 32 then portWrites 0 clockHandler
  else if v = 33 then portWrites 0 keyboardHandler
  else []

/-! ## The system -/

/-- Before interrupts are enabled: the processor sends a word, or a device requests. -/
inductive BootEvent
  | out (w : Byte × Byte)
  | raise (n : Fin 16)

/-- What an event does to the controllers. -/
def bootStep (p : Pics) : BootEvent → Pics
  | .out w => p.out w
  | .raise n => p.raise n

/-- The write, if the event is one. -/
def BootEvent.write : BootEvent → Option (Byte × Byte)
  | .out w => some w
  | .raise _ => none

/-- Then a device requests, or the processor goes on: with a program, which an interrupt
ends, or with a handler, up to the next word that it sends or to its `iret`. -/
inductive PicEvent
  | raise (n : Fin 16)
  | step
  deriving DecidableEq

/-- The controllers, and what the handler that is running has still to send. -/
structure PicSystem where
  pics : Pics
  running : Option (List (Byte × Byte))

/-- A step, with the vector that the processor gets. -/
def picStep (s : PicSystem) : PicEvent → PicSystem × Option Byte
  | .raise n => ({ s with pics := s.pics.raise n }, none)
  | .step =>
      match s.running with
      | some (w :: ws) => (⟨s.pics.out w, some ws⟩, none)
      | some [] => (⟨s.pics, none⟩, none)
      | none => (⟨s.pics.acknowledge.1, s.pics.acknowledge.2.map handlerWrites⟩,
          s.pics.acknowledge.2)

/-- Two flags, and the steps that the handler has left. -/
structure Waiting where
  clock : Bool
  keyboard : Bool
  left : ℕ

/-- The clock comes first. -/
def waitStep (t : Waiting) : PicEvent → Waiting × Option Byte
  | .raise n => (⟨t.clock || n = 0, t.keyboard || n = 1, t.left⟩, none)
  | .step =>
      if 0 < t.left then ({ t with left := t.left - 1 }, none)
      else if t.clock then (⟨false, t.keyboard, 2⟩, some 32)
      else if t.keyboard then (⟨t.clock, false, 2⟩, some 33)
      else (t, none)

/-! ## The controllers follow -/

/-- The word of `EOI`. -/
def eoiWrite : Byte × Byte := (0x20, 0x20)

/-- Where the processor is, with the line in service and the steps left. -/
inductive Phase (running : Option (List (Byte × Byte))) (inService : Byte) (left : ℕ) : Prop
  | program (hrunning : running = none) (hservice : inService = 0) (hleft : left = 0)
  | handler (n : ℕ) (hn : n < 2) (hrunning : running = some [eoiWrite])
      (hservice : inService = lineBit n) (hleft : left = 2)
  | ended (hrunning : running = some []) (hservice : inService = 0) (hleft : left = 1)

/-- The first controller is programmed, and shows the flags. -/
structure Follows (s : PicSystem) (t : Waiting) : Prop where
  expects : s.pics.master.expects = .mask
  autoEoi : s.pics.master.autoEoi = false
  base : s.pics.master.base = 0x20
  mask : s.pics.master.mask = 0xfc
  clock : s.pics.master.requested.getLsbD 0 = t.clock
  keyboard : s.pics.master.requested.getLsbD 1 = t.keyboard
  phase : Phase s.running s.pics.master.inService t.left

section Follows

variable {s : PicSystem} {t : Waiting}

/-- A request. -/
theorem Follows.raise (h : Follows s t) (n : Fin 16) :
    Follows (picStep s (.raise n)).1 (waitStep t (.raise n)).1 := by
  rw [picStep, waitStep]
  -- lines from 8 on are the second controller's, and none of them is open
  by_cases hn : n.val < 8
  · have hpics : s.pics.raise n = { s.pics with master := s.pics.master.raise n } := if_pos hn
    have hbit : ∀ i < 2, (s.pics.master.raise n).requested.getLsbD i =
        (s.pics.master.requested.getLsbD i || decide (i = n.val)) := fun i hi => by
      rw [Pic.raise, BitVec.getLsbD_or, getLsbD_lineBit (by omega)]
    dsimp only
    rw [hpics]
    refine ⟨h.expects, h.autoEoi, h.base, h.mask, ?_, ?_, h.phase⟩
    · refine (hbit 0 (by omega)).trans ?_
      rw [h.clock, decide_eq_decide.mpr (by omega : 0 = n.val ↔ n = 0)]
    · refine (hbit 1 (by omega)).trans ?_
      rw [h.keyboard, decide_eq_decide.mpr (by omega : 1 = n.val ↔ n = 1)]
  · have hpics : s.pics.raise n = { s.pics with slave := s.pics.slave.raise (n - 8) } := if_neg hn
    have hzero : decide (n = 0) = false := decide_eq_false (by omega)
    have hone : decide (n = 1) = false := decide_eq_false (by omega)
    dsimp only
    rw [hpics, hzero, hone, Bool.or_false, Bool.or_false]
    exact ⟨h.expects, h.autoEoi, h.base, h.mask, h.clock, h.keyboard, h.phase⟩

/-- What the first controller has to offer between two services. -/
theorem Follows.pending (h : Follows s t) (hservice : s.pics.master.inService = 0) :
    s.pics.merged.pending =
      if t.clock then some 0 else if t.keyboard then some 1 else none := by
  have hbit : ∀ i < 2, (s.pics.merged.requested &&& ~~~s.pics.merged.mask).getLsbD i =
      s.pics.master.requested.getLsbD i := fun i hi => by
    have hmask : s.pics.merged.mask = 0xfc := h.mask
    have hopen : (~~~(0xfc : Byte)).getLsbD i = true := by
      obtain rfl | rfl : i = 0 ∨ i = 1 := by omega
      all_goals decide
    rw [BitVec.getLsbD_and, hmask, hopen, Bool.and_true,
      s.pics.merged_getLsbD (by omega) (by omega)]
  -- the mask lets the first two lines through and no other
  have hmasked : ∀ i < 8, 1 < i →
      (s.pics.merged.requested &&& ~~~s.pics.merged.mask).getLsbD i = false := fun i hi hlt => by
    have hmask : s.pics.merged.mask = 0xfc := h.mask
    have hclosed : (~~~(0xfc : Byte)).getLsbD i = false := by
      obtain rfl | rfl | rfl | rfl | rfl | rfl :
        i = 2 ∨ i = 3 ∨ i = 4 ∨ i = 5 ∨ i = 6 ∨ i = 7 := by omega
      all_goals decide
    rw [BitVec.getLsbD_and, hmask, hclosed, Bool.and_false]
  have hidle : s.pics.merged.inService = 0 := hservice
  rw [Pic.pending_of_idle hidle, firstLine_of_two hmasked, hbit 0 (by omega), hbit 1 (by omega),
    h.clock, h.keyboard]

/-- The state behind the acknowledgement of one of the two lines. -/
theorem Follows.serve (h : Follows s t) (hservice : s.pics.master.inService = 0) {n : ℕ}
    (hn : n < 2) (slave : Pic) :
    Follows ⟨⟨s.pics.merged.serve n, slave⟩, some [eoiWrite]⟩
      ⟨t.clock && n ≠ 0, t.keyboard && n ≠ 1, 2⟩ := by
  have hbit : ∀ i < 2, (s.pics.merged.serve n).requested.getLsbD i =
      (s.pics.master.requested.getLsbD i && decide (n ≠ i)) := fun i hi => by
    rw [Pic.serve_getLsbD _ n (by omega), s.pics.merged_getLsbD (by omega) (by omega)]
  refine ⟨h.expects, h.autoEoi, h.base, h.mask, ?_, ?_, ?_⟩
  · rw [← h.clock]
    exact hbit 0 (by omega)
  · rw [← h.keyboard]
    exact hbit 1 (by omega)
  · refine Phase.handler n hn rfl ?_ rfl
    show (if s.pics.master.autoEoi then s.pics.master.inService
      else s.pics.master.inService ||| lineBit n) = lineBit n
    rw [h.autoEoi, hservice, if_neg Bool.false_ne_true]
    exact BitVec.zero_or

/-- Between two services the processor gets the vector of the first flag that is set. -/
theorem Follows.acknowledge (h : Follows s t) (hservice : s.pics.master.inService = 0) :
    s.pics.acknowledge =
      if t.clock then (⟨s.pics.merged.serve 0, s.pics.slave⟩, some 32)
      else if t.keyboard then (⟨s.pics.merged.serve 1, s.pics.slave⟩, some 33)
      else (s.pics, none) := by
  have hvector : s.pics.merged.vector 0 = 32 ∧ s.pics.merged.vector 1 = 33 := by
    have hbase : s.pics.merged.base = 0x20 := h.base
    rw [Pic.vector, Pic.vector, hbase]
    exact ⟨rfl, rfl⟩
  rw [Pics.acknowledge, h.pending hservice]
  cases t.clock with
  | true =>
      rw [if_pos rfl, if_pos rfl, ← hvector.1]
      rfl
  | false =>
      rw [if_neg Bool.false_ne_true, if_neg Bool.false_ne_true]
      cases t.keyboard with
      | true =>
          rw [if_pos rfl, if_pos rfl, ← hvector.2]
          rfl
      | false => rfl

/-- **The processor goes on**, and the flags with it. -/
theorem Follows.step (h : Follows s t) :
    (picStep s .step).2 = (waitStep t .step).2 ∧
      Follows (picStep s .step).1 (waitStep t .step).1 := by
  obtain ⟨pics, running⟩ := s
  obtain ⟨clock, keyboard, left⟩ := t
  cases h.phase with
  | program hrunning hservice hleft =>
      obtain rfl : running = none := hrunning
      obtain rfl : left = 0 := hleft
      have hack := h.acknowledge hservice
      have hstep : picStep ⟨pics, none⟩ .step =
          (⟨pics.acknowledge.1, pics.acknowledge.2.map handlerWrites⟩, pics.acknowledge.2) := rfl
      rw [hstep, hack, waitStep, if_neg (lt_irrefl 0)]
      cases clock with
      | true =>
          have hserved : Follows ⟨⟨pics.merged.serve 0, pics.slave⟩, some [eoiWrite]⟩
              ⟨false, keyboard, 2⟩ := by
            simpa using h.serve hservice (n := 0) (by omega) pics.slave
          exact ⟨rfl, hserved⟩
      | false =>
          cases keyboard with
          | true =>
              have hserved : Follows ⟨⟨pics.merged.serve 1, pics.slave⟩, some [eoiWrite]⟩
                  ⟨false, false, 2⟩ := by
                simpa using h.serve hservice (n := 1) (by omega) pics.slave
              exact ⟨rfl, hserved⟩
          | false => exact ⟨rfl, h⟩
  | handler n hn hrunning hservice hleft =>
      obtain rfl : running = some [eoiWrite] := hrunning
      obtain rfl : left = 2 := hleft
      have hout : pics.out eoiWrite =
          { pics with master := { pics.master with inService := 0 } } := by
        rw [← Pic.writeCommand_eoi (by omega) hservice]
        rfl
      have hstep : picStep ⟨pics, some [eoiWrite]⟩ .step = (⟨pics.out eoiWrite, some []⟩, none) :=
        rfl
      rw [hstep, hout]
      exact ⟨rfl, h.expects, h.autoEoi, h.base, h.mask, h.clock, h.keyboard,
        Phase.ended rfl rfl rfl⟩
  | ended hrunning hservice hleft =>
      obtain rfl : running = some [] := hrunning
      obtain rfl : left = 1 := hleft
      exact ⟨rfl, h.expects, h.autoEoi, h.base, h.mask, h.clock, h.keyboard,
        Phase.program rfl hservice rfl⟩

/-- One event. -/
theorem Follows.event (h : Follows s t) (e : PicEvent) :
    (picStep s e).2 = (waitStep t e).2 ∧ Follows (picStep s e).1 (waitStep t e).1 := by
  cases e with
  | raise n => exact ⟨rfl, h.raise n⟩
  | step => exact h.step

end Follows

/-! ## The programming -/

/-- Requests make no difference to the programming. -/
theorem forget_boot (p : Pics) (boot : List BootEvent) :
    (boot.foldl bootStep p).forget =
      (boot.filterMap BootEvent.write).foldl (fun p w => (p.out w).forget) p.forget := by
  refine @obs_foldl_filterMap Pics BootEvent bootStep (Byte × Byte) Pics (fun _ => True)
    (fun _ _ => True) Pics.forget BootEvent.write (fun p w => (p.out w).forget)
    (fun _ _ _ _ => trivial) (fun p e w _ _ hw => ?_) (fun p e _ _ hw => ?_) p boot trivial
    ((allSteps_iff_forall_mem _).mpr fun _ _ => trivial)
  · cases e with
    | out w' =>
        obtain rfl : w' = w := Option.some.inj hw
        exact p.forget_out w'
    | raise n => exact absurd hw (Option.some_ne_none w).symm
  · cases e with
    | out w' => exact absurd hw (Option.some_ne_none w')
    | raise n => exact p.forget_raise n

/-- **The controllers are programmed**, whatever they were and whatever has been requested
in the meantime. -/
theorem follows_boot (p : Pics) {boot : List BootEvent}
    (hboot : boot.filterMap BootEvent.write = remapPics ++ enableInt) :
    Follows ⟨boot.foldl bootStep p, none⟩
      ⟨(boot.foldl bootStep p).master.requested.getLsbD 0,
        (boot.foldl bootStep p).master.requested.getLsbD 1, 0⟩ := by
  have hforget := forget_boot p boot
  rw [hboot] at hforget
  have hmaster : (boot.foldl bootStep p).master.forget =
      ⟨.mask, false, true, 0x20, false, 0xfc, 0, 0⟩ :=
    (congrArg Pics.master hforget).trans rfl
  obtain ⟨hexpects, -, -, hbase, hauto, hmask, -, hservice⟩ := Pic.mk.injEq .. |>.mp hmaster
  exact ⟨hexpects, hauto, hbase, hmask, rfl, rfl, Phase.program rfl hservice rfl⟩

/-! ## Runs -/

/-- What follows the flags puts out what they do. -/
theorem Follows.outputs_eq {s : PicSystem} {t : Waiting} (h : Follows s t)
    (events : List PicEvent) : outputs picStep s events = outputs waitStep t events :=
  @Machine.outputs_eq PicSystem Waiting PicEvent Byte picStep waitStep Follows
    (fun _ _ e h => h.event e) s t h events

/-- **The controllers are two flags.**  However the BIOS has left them, once they have been
programmed the processor gets, along any run of requests and steps, the vectors of the
clock and the keyboard, as the flags say, and no others. -/
theorem pic_run (p : Pics) (boot : List BootEvent)
    (hboot : boot.filterMap BootEvent.write = remapPics ++ enableInt) (events : List PicEvent) :
    outputs picStep ⟨boot.foldl bootStep p, none⟩ events =
      outputs waitStep ⟨(boot.foldl bootStep p).master.requested.getLsbD 0,
        (boot.foldl bootStep p).master.requested.getLsbD 1, 0⟩ events :=
  (follows_boot p hboot).outputs_eq events

section Served

variable {t : Waiting}

/-- A handler has no more than two steps left. -/
theorem waitStep_left (h : t.left ≤ 2) (e : PicEvent) : (waitStep t e).1.left ≤ 2 := by
  cases e with
  | raise n => exact h
  | step =>
      rw [waitStep]
      split
      · exact (Nat.sub_le _ _).trans h
      · split
        · exact le_refl 2
        · split
          · exact le_refl 2
          · exact h

/-- Once the flag of the clock is set, its vector comes as soon as the handler that is
running has ended. -/
theorem clock_mem_outputs (events : List PicEvent) :
    ∀ t : Waiting, t.clock = true → t.left < events.count .step →
      (32 : Byte) ∈ outputs waitStep t events := by
  induction events with
  | nil => exact fun t _ hleft => absurd hleft (Nat.not_lt_zero _)
  | cons e events ih =>
      intro t hclock hleft
      rw [outputs, List.mem_append]
      cases e with
      | raise n =>
          rw [List.count_cons_of_ne PicEvent.noConfusion] at hleft
          refine Or.inr (ih _ ?_ hleft)
          show (t.clock || decide (n = 0)) = true
          rw [hclock, Bool.true_or]
      | step =>
          rw [List.count_cons_self] at hleft
          rw [waitStep]
          by_cases hpos : 0 < t.left
          · rw [if_pos hpos]
            refine Or.inr (ih _ hclock ?_)
            show t.left - 1 < events.count .step
            omega
          · rw [if_neg hpos, hclock]
            exact Or.inl (by simp)

end Served

/-- **No request of the clock is lost.**  In any run, after a request of the clock its
vector comes within three steps of the processor. -/
theorem pic_clock_served (p : Pics) (boot : List BootEvent)
    (hboot : boot.filterMap BootEvent.write = remapPics ++ enableInt)
    (before after : List PicEvent) (hafter : 3 ≤ after.count .step) :
    (32 : Byte) ∈ outputs picStep
      ((before ++ [PicEvent.raise 0]).foldl (fun s e => (picStep s e).1)
        ⟨boot.foldl bootStep p, none⟩)
      after := by
  have hfollows : ∀ (events : List PicEvent) (s : PicSystem) (t : Waiting), Follows s t →
      t.left ≤ 2 →
        ∃ t', Follows (events.foldl (fun s e => (picStep s e).1) s) t' ∧ t'.left ≤ 2 := by
    intro events
    induction events with
    | nil => exact fun s t h hleft => ⟨t, h, hleft⟩
    | cons e events ih =>
        exact fun s t h hleft => ih _ _ (h.event e).2 (waitStep_left hleft e)
  obtain ⟨t, hfollow, hleft⟩ := hfollows before _ _ (follows_boot p hboot) (Nat.zero_le 2)
  have hraised := (hfollow.event (.raise 0)).2
  rw [List.foldl_append, List.foldl_cons, List.foldl_nil, hraised.outputs_eq after]
  refine clock_mem_outputs after _ ?_ ?_
  · show (t.clock || decide ((0 : Fin 16) = 0)) = true
    rw [decide_eq_true rfl, Bool.or_true]
  · show t.left < after.count .step
    omega

/-- Controllers that have not been programmed. -/
def biosPics : Pics :=
  ⟨⟨.mask, false, true, 8, false, 0xb8, 0x41, 0⟩, ⟨.mask, false, true, 0x70, false, 0x8e, 0, 0⟩⟩

/-- The words, with a key pressed before the last. -/
def someBoot : List BootEvent :=
  remapPics.map .out ++ [.raise 1, .out (0x21, 0xfc)]

theorem pic_run_key :
    outputs picStep ⟨someBoot.foldl bootStep biosPics, none⟩
      [.raise 0, .step, .step, .step, .step] = [32, 33] :=
  (pic_run biosPics someBoot rfl [.raise 0, .step, .step, .step, .step]).trans (by decide)

theorem pic_clock_served_key :
    (32 : Byte) ∈ outputs picStep
      (([PicEvent.step] ++ [PicEvent.raise 0]).foldl (fun s e => (picStep s e).1)
        ⟨someBoot.foldl bootStep biosPics, none⟩) [.step, .raise 1, .step, .step] :=
  pic_clock_served biosPics someBoot rfl [.step] [.step, .raise 1, .step, .step] (by decide)

end Zeos
