import Mathlib.Data.List.Basic

/-!
# The dynamic gadget

`drivers/usb/gadget/dynamic.c`: function drivers register by name, at any time; the gadget binds
the functions of the board, in the board's order, when its configuration is bound and all of
them are registered.

A registered function is known by its place in the list of registrations, since names may
repeat.
-/

namespace NestLinux.DynamicGadget

open List

/-- `struct dynamic_usb_dev`: the functions of the board, and whether there is a
configuration. -/
structure UsbDev where
  functions : List String
  config : Bool
  deriving DecidableEq, Repr

/-- The names of the registered functions `_functions`, the device, the flag
`_are_functions_bound`, and the functions for which `bind_config` was called. -/
structure Gadget where
  functions : List String
  dev : Option UsbDev
  areFunctionsBound : Bool
  calls : List ℕ
  deriving DecidableEq, Repr

/-- `get_function`: the first function of the name. -/
def getFunction (functions : List String) (name : String) : Option ℕ :=
  functions.findIdx? fun f => name == f

/-- `are_functions_registered`: a search from the end of the list for each name. -/
def areFunctionsRegistered (functions : List String) (dev : UsbDev) : Bool :=
  dev.functions.all fun name => functions.reverse.any fun f => name == f

variable (g : Gadget)

def shouldBindFunctions (dev : UsbDev) : Bool :=
  if !dev.config then false
  else if g.areFunctionsBound then false
  else if !areFunctionsRegistered g.functions dev then false
  else true

/-- `bind_functions`: a name that is not found is skipped. -/
def bindFunctions (dev : UsbDev) : Gadget :=
  { g with
    calls := g.calls ++ dev.functions.filterMap (getFunction g.functions)
    areFunctionsBound := true }

/-- `dynamic_bind_config`, which needs the device. -/
def dynamicBindConfig : Option Gadget :=
  g.dev.map fun dev =>
    let dev := { dev with config := true }
    let g := { g with dev := some dev }
    if shouldBindFunctions g dev then bindFunctions g dev else g

def dynamicRegisterFunction (name : String) : Gadget :=
  let g := { g with functions := g.functions ++ [name] }
  match g.dev with
  | none => g
  | some dev => if shouldBindFunctions g dev then bindFunctions g dev else g

def Gadget.boot : Gadget where
  functions := []
  dev := none
  areFunctionsBound := false
  calls := []

/-- What happens to the driver; `init` is `dynamic_init` with the platform data of
`dynamic_probe`. -/
inductive Event
  | register (name : String)
  | init
  | bindConfig
  deriving DecidableEq, Repr

section Run

variable (board : List String)

/-- One event. The driver starts once. -/
def Gadget.step : Event → Option Gadget
  | .register name => some (dynamicRegisterFunction g name)
  | .init =>
    if g.dev = none then some { g with dev := some { functions := board, config := false } }
    else none
  | .bindConfig => dynamicBindConfig g

inductive Run : List Event → Gadget → Prop
  | boot : Run [] Gadget.boot
  | step {es : List Event} {g g' : Gadget} {e : Event} :
      Run es g → g.step board e = some g' → Run (es ++ [e]) g'

end Run

/-! ## When the functions are bound -/

/-- The names registered, in order. -/
def names (es : List Event) : List String :=
  es.filterMap fun
    | .register name => some name
    | _ => none

/-- The configuration is bound, and every function of the board is registered. -/
def Ready (board : List String) (es : List Event) : Prop :=
  .bindConfig ∈ es ∧ ∀ name ∈ board, name ∈ names es

instance (board : List String) (es : List Event) : Decidable (Ready board es) :=
  inferInstanceAs (Decidable (_ ∧ _))

/-- The calls of `bind_config` after some events: none, or one for each function of the board,
with the first function registered under the name. -/
def calls (board : List String) (es : List Event) : List ℕ :=
  if Ready board es then board.map fun name => (names es).idxOf name else []

variable {board : List String} {es : List Event} {e : Event} {g g' : Gadget}

theorem areFunctionsRegistered_iff {functions : List String} {dev : UsbDev} :
    areFunctionsRegistered functions dev ↔ ∀ name ∈ dev.functions, name ∈ functions := by
  simp [areFunctionsRegistered]

theorem shouldBindFunctions_iff {dev : UsbDev} : shouldBindFunctions g dev ↔
      dev.config ∧ g.areFunctionsBound = false ∧ ∀ name ∈ dev.functions, name ∈ g.functions := by
  rw [← areFunctionsRegistered_iff]
  unfold shouldBindFunctions
  grind

theorem getFunction_eq {functions : List String} {name : String} (h : name ∈ functions) :
    getFunction functions name = some (functions.idxOf name) := by
  rw [getFunction, findIdx?_eq_some_iff_findIdx_eq]
  refine ⟨idxOf_lt_length_of_mem h, ?_⟩
  congr 1
  funext f
  exact Bool.beq_comm

theorem filterMap_getFunction {functions : List String} (h : ∀ name ∈ board, name ∈ functions) :
    board.filterMap (getFunction functions) = board.map fun name => functions.idxOf name := by
  rw [← filterMap_eq_map]
  exact filterMap_congr fun name hnm => getFunction_eq (h name hnm)

theorem names_concat : names (es ++ [e]) = names es ++ names [e] := filterMap_append

theorem Ready.concat (h : Ready board es) (e : Event) : Ready board (es ++ [e]) := by
  refine ⟨mem_append_left _ h.1, fun name hnm => ?_⟩
  rw [names_concat]
  exact mem_append_left _ (h.2 name hnm)

/-- Later events do not change which function is the first of its name. -/
theorem Ready.calls_concat (h : Ready board es) (e : Event) :
    calls board (es ++ [e]) = calls board es := by
  rw [calls, calls, if_pos h, if_pos (h.concat e)]
  apply map_congr_left
  intro name hnm
  rw [names_concat, idxOf_append_of_mem (h.2 name hnm)]

/-- What the driver has done after some events. -/
structure Inv (board : List String) (es : List Event) (g : Gadget) : Prop where
  functions : g.functions = names es
  dev : g.dev = if .init ∈ es then some ⟨board, decide (.bindConfig ∈ es)⟩ else none
  init_mem : .bindConfig ∈ es → .init ∈ es
  bound : g.areFunctionsBound = decide (Ready board es)
  calls : g.calls = calls board es

/-- The end of both entry points: the functions are bound if this event has made the gadget
ready. -/
theorem bind_of_ready {dev : UsbDev} (h : Inv board es g) (hg : g'.functions = names (es ++ [e]))
    (hdev : dev = ⟨board, decide (.bindConfig ∈ es ++ [e])⟩) (hg' : g'.dev = some dev)
    (hin : .init ∈ es) (hbd : g'.areFunctionsBound = g.areFunctionsBound)
    (hcal : g'.calls = g.calls) :
    Inv board (es ++ [e]) (if shouldBindFunctions g' dev then bindFunctions g' dev else g') := by
  have hm : Event.init ∈ es ++ [e] := mem_append_left _ hin
  have hshd : shouldBindFunctions g' dev ↔ Ready board (es ++ [e]) ∧ ¬ Ready board es := by
    rw [shouldBindFunctions_iff, hbd, h.bound, hdev, hg, decide_eq_true_iff,
      decide_eq_false_iff_not]
    exact ⟨fun ⟨hbn, hn, ha⟩ => ⟨⟨hbn, ha⟩, hn⟩,
      fun ⟨⟨hbn, ha⟩, hn⟩ => ⟨hbn, hn, ha⟩⟩
  have hdev' : g'.dev = if .init ∈ es ++ [e] then
      some ⟨board, decide (.bindConfig ∈ es ++ [e])⟩ else none := by
    rw [hg', if_pos hm, hdev]
  by_cases hrdy : Ready board es
  · rw [if_neg (fun hs => (hshd.1 hs).2 hrdy)]
    refine ⟨hg, hdev', fun _ => hm, ?_, ?_⟩
    · rw [hbd, h.bound, decide_eq_true hrdy, decide_eq_true (hrdy.concat e)]
    · rw [hcal, h.calls, hrdy.calls_concat]
  have hno : g'.calls = [] := by rw [hcal, h.calls, DynamicGadget.calls, if_neg hrdy]
  by_cases hnw : Ready board (es ++ [e])
  · rw [if_pos (hshd.2 ⟨hnw, hrdy⟩)]
    refine ⟨hg, hdev', fun _ => hm, (decide_eq_true hnw).symm, ?_⟩
    simp only [bindFunctions, hno, nil_append]
    rw [DynamicGadget.calls, if_pos hnw, hg, hdev, filterMap_getFunction hnw.2]
  rw [if_neg (fun hs => hnw (hshd.1 hs).1)]
  refine ⟨hg, hdev', fun _ => hm, ?_, ?_⟩
  · rw [hbd, h.bound, decide_eq_false hrdy, decide_eq_false hnw]
  · rw [hno, DynamicGadget.calls, if_neg hnw]

/-- An event on which no function can be bound, since the configuration is not. -/
theorem Inv.unbound (h : Inv board es g) (hbn : .bindConfig ∉ es ++ [e])
    (hg : g'.functions = names (es ++ [e]))
    (hdev : g'.dev = if .init ∈ es ++ [e] then some ⟨board, false⟩ else none)
    (hbd : g'.areFunctionsBound = g.areFunctionsBound) (hcal : g'.calls = g.calls) :
    Inv board (es ++ [e]) g' := by
  have hrdy : ¬ Ready board es := fun hr => hbn (mem_append_left _ hr.1)
  have hn : ¬ Ready board (es ++ [e]) := fun hr => hbn hr.1
  refine ⟨hg, ?_, fun hm => absurd hm hbn, ?_, ?_⟩
  · rw [hdev, decide_eq_false hbn]
  · rw [hbd, h.bound, decide_eq_false hrdy, decide_eq_false hn]
  · rw [hcal, h.calls, DynamicGadget.calls, DynamicGadget.calls, if_neg hrdy, if_neg hn]

theorem Inv.step (h : Inv board es g) (hsp : g.step board e = some g') :
    Inv board (es ++ [e]) g' := by
  cases e with
  | register name =>
    have hnm : g.functions ++ [name] = names (es ++ [.register name]) := by
      rw [names_concat, h.functions]
      rfl
    rw [Gadget.step, Option.some.injEq] at hsp
    subst hsp
    by_cases hin : Event.init ∈ es
    · have hdev := h.dev
      rw [if_pos hin] at hdev
      simp only [dynamicRegisterFunction, hdev]
      exact bind_of_ready h hnm (by simp) rfl hin rfl rfl
    have hdev := h.dev
    rw [if_neg hin] at hdev
    simp only [dynamicRegisterFunction, hdev]
    have hbn : Event.bindConfig ∉ es := fun hm => hin (h.init_mem hm)
    exact h.unbound (by simpa using hbn) hnm (by simp [hin]) rfl rfl
  | init =>
    simp only [Gadget.step] at hsp
    split at hsp
    case isFalse => exact absurd hsp (by simp)
    case isTrue hdev =>
      cases hsp
      have hin : Event.init ∉ es := by
        intro hm
        rw [h.dev, if_pos hm] at hdev
        cases hdev
      have hbn : Event.bindConfig ∉ es := fun hm => hin (h.init_mem hm)
      refine h.unbound (by simpa using hbn) ?_ (by simp) rfl rfl
      rw [names_concat, h.functions]
      exact (append_nil _).symm
  | bindConfig =>
    obtain ⟨dev, hdev, hbn⟩ := Option.map_eq_some_iff.1 hsp
    have hin : Event.init ∈ es := by
      by_contra hm
      rw [h.dev, if_neg hm] at hdev
      cases hdev
    have hfn : dev.functions = board := by
      rw [h.dev, if_pos hin, Option.some.injEq] at hdev
      rw [← hdev]
    rw [← hbn]
    refine bind_of_ready h ?_ (by simp [hfn]) rfl hin rfl rfl
    rw [names_concat, h.functions]
    exact (append_nil _).symm

theorem Run.inv (h : Run board es g) : Inv board es g := by
  induction h with
  | boot => exact ⟨rfl, rfl, by simp, rfl, rfl⟩
  | step _ hsp ih => exact ih.step hsp

/-- **The functions are bound once.** `bind_config` is not called before the configuration is
bound and all functions of the board are registered. Then it has been called once for each
function of the board, in the board's order and on the first function registered under the
name, and no later event calls it again. -/
theorem run_binds_once {board : List String} {es : List Event} {g : Gadget} (h : Run board es g) :
    (¬ Ready board es → g.calls = []) ∧
      (Ready board es →
        g.calls = board.map (fun name => (names es).idxOf name) ∧
        g.calls.length = board.length ∧
        ∀ e g', g.step board e = some g' → g'.calls = g.calls) := by
  have hcalls := h.inv.calls
  refine ⟨fun hready => by rw [hcalls, calls, if_neg hready], fun hready => ?_⟩
  have hboard : g.calls = board.map (fun name => (names es).idxOf name) := by
    rw [hcalls, calls, if_pos hready]
  refine ⟨hboard, by rw [hboard, length_map], fun e g' hstep => ?_⟩
  rw [(h.step hstep).inv.calls, hcalls, hready.calls_concat]

/-- A function registers before the driver starts, again, and another one after the bind. -/
theorem run_binds_once_late :
    ∃ g, Run ["rndis", "acm"]
        [.register "acm", .register "acm", .init, .bindConfig, .register "rndis"] g ∧
      g.calls = [2, 0] := by
  let g : Gadget :=
    { functions := ["acm", "acm", "rndis"]
      dev := some ⟨["rndis", "acm"], true⟩
      areFunctionsBound := true
      calls := [2, 0] }
  have hrun : Run ["rndis", "acm"]
      [.register "acm", .register "acm", .init, .bindConfig, .register "rndis"] g :=
    ((((Run.boot.step (e := .register "acm") rfl).step (e := .register "acm") rfl).step
      (e := .init) rfl).step (e := .bindConfig) rfl).step (e := .register "rndis") (by decide)
  exact ⟨g, hrun, ((run_binds_once hrun).2 (by decide)).1⟩

/-! ## Identity -/

/-- `struct dynamic_usb_product`. -/
structure UsbProduct where
  vendorId : ℕ
  productId : ℕ
  functions : List String

/-- A function of the configuration. -/
structure UsbFunction where
  name : String
  disabled : Bool

/-- The identity in `struct dynamic_usb_dev`, and the products of the board. -/
structure UsbIdentity where
  vendorId : ℕ
  productId : ℕ
  products : Option (List UsbProduct)

/-- `product_has_function`: compared up to the length of the product's name. -/
def productHasFunction (p : UsbProduct) (f : UsbFunction) : Bool :=
  p.functions.any fun name => name.toList.isPrefixOf f.name.toList

def productMatchesFunctions (functions : List UsbFunction) (p : UsbProduct) : Bool :=
  functions.all fun f => productHasFunction p f != f.disabled

variable (dev : UsbIdentity) (functions : List UsbFunction)

/-- The entry at which the loop of `get_vendor_id` returns. -/
def vendorEntry : Option UsbProduct :=
  (dev.products.getD []).find? fun p => p.vendorId != 0 && productMatchesFunctions functions p

/-- The entry at which the loop of `get_product_id` returns: the first one that matches. -/
def productEntry : Option UsbProduct :=
  (dev.products.getD []).find? (productMatchesFunctions functions)

def getVendorId : ℕ := ((vendorEntry dev functions).map (·.vendorId)).getD dev.vendorId

def getProductId : ℕ := ((productEntry dev functions).map (·.productId)).getD dev.productId

/-- The identity that an entry gives, or the lack of one. -/
def identityOf : Option UsbProduct → ℕ × ℕ
  | none => (dev.vendorId, dev.productId)
  | some p => (if p.vendorId ≠ 0 then p.vendorId else dev.vendorId, p.productId)

variable {dev functions}

/-- An entry with a vendor that matches first is the entry of both loops. -/
theorem vendorEntry_of_ne_zero {p : UsbProduct} (h : productEntry dev functions = some p)
    (hp : p.vendorId ≠ 0) : vendorEntry dev functions = some p := by
  obtain ⟨hmat, before, after, hli, hb⟩ := find?_eq_some_iff_append.1 h
  refine find?_eq_some_iff_append.2 ⟨by simp [hp, hmat], before, after, hli, ?_⟩
  intro q hq
  simp [hb q hq]

theorem vendorEntry_of_none (h : productEntry dev functions = none) :
    vendorEntry dev functions = none := by
  rw [productEntry, find?_eq_none] at h
  rw [vendorEntry, find?_eq_none]
  intro q hq
  simp [h q hq]

/-- **The identity of one product.** Vendor and product come from the first entry that matches,
unless that entry has no vendor and a later one that matches has another one than the device. -/
theorem identity_of_entry_iff (dev : UsbIdentity) (functions : List UsbFunction) :
    (getVendorId dev functions, getProductId dev functions) =
        identityOf dev (productEntry dev functions) ↔
      ∀ p q, productEntry dev functions = some p → p.vendorId = 0 →
        vendorEntry dev functions = some q → q.vendorId = dev.vendorId := by
  rw [getVendorId, getProductId]
  cases hp : productEntry dev functions with
  | none => simp [vendorEntry_of_none hp, identityOf]
  | some p =>
    by_cases hzero : p.vendorId = 0
    · cases hq : vendorEntry dev functions <;> simp [identityOf, hzero]
    · simp [vendorEntry_of_ne_zero hp hzero, identityOf]

def twoEntries : UsbIdentity := ⟨1, 2, some [⟨0, 3, ["acm"]⟩, ⟨4, 5, ["acm"]⟩]⟩

/-- The product of the first and the vendor of the second. -/
theorem identity_of_twoEntries :
    (getVendorId twoEntries [⟨"acm0", false⟩], getProductId twoEntries [⟨"acm0", false⟩]) = (4, 3) ∧
      identityOf twoEntries (productEntry twoEntries [⟨"acm0", false⟩]) = (1, 3) := by
  decide

end NestLinux.DynamicGadget
