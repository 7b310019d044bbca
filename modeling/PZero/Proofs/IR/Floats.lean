import PZero.IR.Module

namespace PZero.IR

mutual

/-- A constant with every single float changed. Floats of other kinds are not rounded, and stay. -/
def Constant.mapFloats (f : UInt64 → UInt64) : Constant → Constant
  | .float .single bits => .float .single (f bits)
  | .float kind bits => .float kind bits
  | .array elem values => .array elem (Constant.mapAllFloats f values)
  | .gep inBounds elem addr indices =>
    .gep inBounds elem (addr.mapFloats f) (Constant.mapAllFloats f indices)
  | .zext value target => .zext (value.mapFloats f) target
  | .int bits value => .int bits value
  | .global name type => .global name type

def Constant.mapAllFloats (f : UInt64 → UInt64) : List Constant → List Constant
  | [] => []
  | c :: cs => c.mapFloats f :: Constant.mapAllFloats f cs

end

def Operand.mapFloats (f : UInt64 → UInt64) : Operand → Operand
  | .reg r => .reg r
  | .const c => .const (c.mapFloats f)

def Incoming.mapFloats (f : UInt64 → UInt64) (i : Incoming) : Incoming :=
  ⟨i.value.mapFloats f, i.label⟩

def Instr.mapFloats (f : UInt64 → UInt64) : Instr → Instr
  | .bin dst op x y => .bin dst op (x.mapFloats f) (y.mapFloats f)
  | .icmp dst pred x y => .icmp dst pred (x.mapFloats f) (y.mapFloats f)
  | .fcmp dst pred x y => .fcmp dst pred (x.mapFloats f) (y.mapFloats f)
  | .load dst elem addr => .load dst elem (addr.mapFloats f)
  | .store value addr => .store (value.mapFloats f) (addr.mapFloats f)
  | .condBr cond then_ else_ => .condBr (cond.mapFloats f) then_ else_
  | .phi dst incoming => .phi dst (incoming.map (Incoming.mapFloats f))
  | .ret value => .ret (value.mapFloats f)
  | .call dst result callee xs => .call dst result callee (xs.map (Operand.mapFloats f))
  | .callVoid callee xs => .callVoid callee (xs.map (Operand.mapFloats f))
  | .zext dst value target => .zext dst (value.mapFloats f) target
  | .gep dst inBounds elem addr indices =>
    .gep dst inBounds elem (addr.mapFloats f) (indices.map (Operand.mapFloats f))
  | .alloca dst elem => .alloca dst elem
  | .br target => .br target
  | .label name => .label name
  | .retVoid => .retVoid

def Global.mapFloats (f : UInt64 → UInt64) (g : Global) : Global :=
  { g with value := g.value.mapFloats f }

def Function.mapFloats (f : UInt64 → UInt64) (F : Function) : Function :=
  { F with body := F.body.map (Instr.mapFloats f) }

def Module.mapFloats (f : UInt64 → UInt64) (m : Module) : Module :=
  { m with
    globals := m.globals.map (Global.mapFloats f)
    functions := m.functions.map (Function.mapFloats f) }

abbrev Constant.rounded (c : Constant) : Constant := c.mapFloats Binary.toSingle

abbrev Operand.rounded (x : Operand) : Operand := x.mapFloats Binary.toSingle

abbrev Incoming.rounded (i : Incoming) : Incoming := i.mapFloats Binary.toSingle

abbrev Instr.rounded (i : Instr) : Instr := i.mapFloats Binary.toSingle

abbrev Global.rounded (g : Global) : Global := g.mapFloats Binary.toSingle

abbrev Function.rounded (F : Function) : Function := F.mapFloats Binary.toSingle

abbrev Module.rounded (m : Module) : Module := m.mapFloats Binary.toSingle

variable (f : UInt64 → UInt64)

theorem Constant.mapAllFloats_eq (cs : List Constant) :
    mapAllFloats f cs = cs.map (mapFloats f) := by
  induction cs with
  | nil => rfl
  | cons c cs ih => rw [mapAllFloats, ih, List.map_cons]

@[simp] theorem Constant.index?_mapFloats (c : Constant) : (c.mapFloats f).index? = c.index? := by
  cases c with
  | float kind bits => cases kind <;> rfl
  | _ => rfl

@[simp] theorem Constant.type_mapFloats (c : Constant) : (c.mapFloats f).type = c.type := by
  cases c with
  | float kind bits => cases kind <;> rfl
  | array elem values => rw [mapFloats, type, mapAllFloats_eq, List.length_map, type]
  | gep inBounds elem addr indices =>
    rw [mapFloats, type, mapAllFloats_eq, List.map_map, type]
    exact congrArg _ (List.map_congr_left fun c _ ↦ index?_mapFloats f c)
  | int | global | zext => rfl

@[simp] theorem Operand.type_mapFloats (x : Operand) : (x.mapFloats f).type = x.type := by
  cases x with
  | reg r => rfl
  | const c => exact Constant.type_mapFloats f c

@[simp] theorem Operand.index?_mapFloats (x : Operand) : (x.mapFloats f).index? = x.index? := by
  cases x with
  | reg r => rfl
  | const c => exact Constant.index?_mapFloats f c

section Composition

variable (f' : UInt64 → UInt64)

mutual

theorem Constant.mapFloats_mapFloats :
    ∀ c : Constant, (c.mapFloats f).mapFloats f' = c.mapFloats (f' ∘ f)
  | .float kind bits => by cases kind <;> rfl
  | .array elem values => by
    rw [mapFloats, mapFloats, mapFloats, mapAllFloats_mapAllFloats values]
  | .gep inBounds elem addr indices => by
    rw [mapFloats, mapFloats, mapFloats, mapFloats_mapFloats addr,
      mapAllFloats_mapAllFloats indices]
  | .zext value target => by rw [mapFloats, mapFloats, mapFloats, mapFloats_mapFloats value]
  | .int bits value => rfl
  | .global name type => rfl

theorem Constant.mapAllFloats_mapAllFloats :
    ∀ cs, mapAllFloats f' (mapAllFloats f cs) = mapAllFloats (f' ∘ f) cs
  | [] => rfl
  | c :: cs => by
    rw [mapAllFloats, mapAllFloats, mapAllFloats, mapFloats_mapFloats c,
      mapAllFloats_mapAllFloats cs]

end

theorem Operand.mapFloats_mapFloats (x : Operand) :
    (x.mapFloats f).mapFloats f' = x.mapFloats (f' ∘ f) := by
  cases x with
  | reg r => rfl
  | const c => exact congrArg _ (Constant.mapFloats_mapFloats f f' c)

theorem Instr.mapFloats_mapFloats (i : Instr) :
    (i.mapFloats f).mapFloats f' = i.mapFloats (f' ∘ f) := by
  have hx : ∀ x : Operand, (x.mapFloats f).mapFloats f' = x.mapFloats (f' ∘ f) :=
    Operand.mapFloats_mapFloats f f'
  have hxs : Operand.mapFloats f' ∘ Operand.mapFloats f = Operand.mapFloats (f' ∘ f) := funext hx
  have hi : Incoming.mapFloats f' ∘ Incoming.mapFloats f = Incoming.mapFloats (f' ∘ f) :=
    funext fun i ↦ by simp only [Function.comp_apply, Incoming.mapFloats, hx]
  cases i <;> simp only [Instr.mapFloats, hx, List.map_map, hxs, hi]

theorem Module.mapFloats_mapFloats (m : Module) :
    (m.mapFloats f).mapFloats f' = m.mapFloats (f' ∘ f) := by
  have hi : Instr.mapFloats f' ∘ Instr.mapFloats f = Instr.mapFloats (f' ∘ f) :=
    funext (Instr.mapFloats_mapFloats f f')
  have hg : Global.mapFloats f' ∘ Global.mapFloats f = Global.mapFloats (f' ∘ f) :=
    funext fun g ↦ by
      simp only [Function.comp_apply, Global.mapFloats, Constant.mapFloats_mapFloats]
  have hF : Function.mapFloats f' ∘ Function.mapFloats f = Function.mapFloats (f' ∘ f) :=
    funext fun F ↦ by simp only [Function.comp_apply, Function.mapFloats, List.map_map, hi]
  simp only [mapFloats, List.map_map, hg, hF]

end Composition

section Text

variable {f : UInt64 → UInt64}

theorem Constant.stringBytes?_mapFloats (elem : Ty) (values : List Constant) :
    stringBytes? elem (mapAllFloats f values) = stringBytes? elem values := by
  rw [mapAllFloats_eq, stringBytes?, stringBytes?, List.isEmpty_map, List.mapM_map]
  simp only [Function.comp_def, index?_mapFloats]

/-- Rounding does not see a change of floats. -/
def Unseen (f : UInt64 → UInt64) : Prop :=
  ∀ bits, Binary.toSingle (f bits) = Binary.toSingle bits

mutual

theorem Constant.bare_mapFloats (h : Unseen f) : ∀ c : Constant, (c.mapFloats f).bare = c.bare
  | .float kind bits => by
    cases kind with
    | single => simp only [mapFloats, bare, floatText, if_true, h bits]
    | half | double => rfl
  | .array elem values => by
    rw [mapFloats, bare, bare, stringBytes?_mapFloats, texts_mapFloats h values]
  | .gep inBounds elem addr indices => by
    rw [mapFloats, bare, bare, type_mapFloats, bare_mapFloats h addr, texts_mapFloats h indices]
  | .zext value target => by
    rw [mapFloats, bare, bare, type_mapFloats, bare_mapFloats h value]
  | .int bits value => rfl
  | .global name type => rfl

theorem Constant.texts_mapFloats (h : Unseen f) : ∀ cs, texts (mapAllFloats f cs) = texts cs
  | [] => rfl
  | c :: cs => by
    rw [mapAllFloats, texts, texts, type_mapFloats, bare_mapFloats h c, texts_mapFloats h cs]

end

theorem Constant.text_mapFloats (h : Unseen f) (c : Constant) : (c.mapFloats f).text = c.text := by
  rw [text, type_mapFloats, bare_mapFloats h, text]

theorem Operand.bare_mapFloats (h : Unseen f) (x : Operand) : (x.mapFloats f).bare = x.bare := by
  cases x with
  | reg r => rfl
  | const c => exact Constant.bare_mapFloats h c

theorem Operand.text_mapFloats (h : Unseen f) (x : Operand) : (x.mapFloats f).text = x.text := by
  rw [text, type_mapFloats, bare_mapFloats h, text]

theorem Instr.text_mapFloats (h : Unseen f) (i : Instr) : (i.mapFloats f).text = i.text := by
  have hxs : Operand.text ∘ Operand.mapFloats f = Operand.text := funext (Operand.text_mapFloats h)
  cases i <;> simp only [mapFloats, text, ofTwo, args, List.map_map, hxs, Operand.bare_mapFloats h,
    Operand.text_mapFloats h, Incoming.mapFloats, Function.comp_def]

end Text

end PZero.IR
