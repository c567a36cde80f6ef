import ShapeCheck.Proofs.Env.Session

/-! What holds of a session at every step, whatever the recipes ask for and wherever they stop: a
recipe starts once, a name resolves to one type, and a problem with a name is reported once. -/

namespace ShapeCheck.Env
variable {env : Env} {name n : String} {f : Cell → Cell} {c : Cell} {s s' : Session}
  {log : List Event} {e : Event} {t u : Ty}

/-- The environments differ in the cell of one name only, which is there now. -/
structure Revises (env : Env) (name : String) (c : Cell) (env' : Env) : Prop where
  names : env'.names = env.names
  self : env'.find? name = some c
  other : ∀ n, n ≠ name → env'.find? n = env.find? n

theorem revises_update (hf : ∀ c, (f c).name = c.name) (h : env.find? name = some c) :
    env.Revises name (f c) (env.update name f) where
  names := by
    simp only [names, update, List.map_map]
    apply List.map_congr_left
    intro c _
    by_cases hn : c.name = name <;> simp [hn, hf]
  self := by rw [find?_update hf, h, Option.map_some, if_pos (find?_eq_some h).2]
  other n hn := by
    rw [find?_update hf]
    cases h : env.find? n with
    | none => rfl
    | some c => rw [Option.map_some, if_neg (by rw [(find?_eq_some h).2]; exact hn)]

theorem find?_extend_self {cell : Cell} (hn : env.find? cell.name = none) :
    { env with cells := env.cells ++ [cell] }.find? cell.name = some cell := by
  simp only [find?] at hn ⊢
  rw [List.find?_append, hn]
  simp

theorem find?_extend_ne {cell : Cell} (hn : n ≠ cell.name) :
    { env with cells := env.cells ++ [cell] }.find? n = env.find? n := by
  simp [find?, List.find?_append, hn.symm]

theorem revises_mark (h : env.find? name = some c) :
    env.Revises name { c with circular := true } (mark name env) := by
  obtain ⟨hnames, hself, hother⟩ := revises_update (f := fun c => { c with circular := true })
    (fun _ => by rfl) h
  exact ⟨hnames, hself, hother⟩

theorem revises_enter (h : env.find? name = some c) :
    env.Revises name { c with progress := .underWay } (enter name env) := by
  obtain ⟨hnames, hself, hother⟩ := revises_update (f := fun c => { c with progress := .underWay })
    (fun _ => by rfl) h
  exact ⟨hnames, hself, hother⟩

theorem revises_filled (h : env.find? name = some c) (t : Ty) :
    env.Revises name { c with progress := .settled t } (filled name t env) := by
  obtain ⟨hnames, hself, hother⟩ := revises_update (f := fun c => { c with progress := .settled t })
    (fun _ => by rfl) h
  exact ⟨hnames, hself, hother⟩

namespace Event

def starts (name : String) : Event → Bool
  | .started n => n = name
  | _ => false

def gives (name : String) : Event → Option Ty
  | .gave n t => if n = name then some t else none
  | _ => none

def closes (name : String) : Event → Bool
  | .circular n _ => n = name
  | _ => false

def misses (name : String) : Event → Bool
  | .unknown n _ => n = name
  | _ => false

/-- The name that an event is about. -/
def subject : Event → Option String
  | .started n | .gave n _ | .circular n _ | .unknown n _ => some n
  | .told _ => none

def problem? : Event → Option Diagnostic
  | .circular _ d | .unknown _ d | .told d => some d
  | _ => none

/-- The problem that is reported with an event is the one that the event is for. -/
def Labelled : Event → Prop
  | .circular n d => ∃ span route, d = circularName n span route
  | .unknown n d => ∃ span, d = unknownName n span
  | _ => True

end Event

/-- What was noted about a name agrees with how far its cell is. -/
def Standing (name : String) (log : List Event) : Option Cell → Prop
  | none =>
    log.countP (·.starts name) = 0 ∧ log.countP (·.closes name) = 0 ∧
      log.filterMap (·.gives name) = []
  | some c =>
    match c.progress with
    | .waiting _ =>
      c.circular = false ∧ log.countP (·.starts name) = 0 ∧ log.countP (·.closes name) = 0 ∧
        log.filterMap (·.gives name) = []
    | .underWay =>
      log.countP (·.starts name) = 1 ∧ log.countP (·.closes name) ≤ c.circular.toNat ∧
        ∀ t ∈ log.filterMap (·.gives name), c.circular ∧ t = Ty.never
    | .settled u =>
      log.countP (·.starts name) = 1 ∧ log.countP (·.closes name) ≤ 1 ∧
        (∀ t ∈ log.filterMap (·.gives name), t = u) ∧ (c.circular → u = Ty.never)

theorem Event.of_subject_ne (h : e.subject ≠ some n) :
    e.starts n = false ∧ e.closes n = false ∧ e.gives n = none ∧ e.misses n = false := by
  cases e with
  | told d => exact ⟨rfl, rfl, rfl, rfl⟩
  | _ => simp_all [Event.subject, Event.starts, Event.closes, Event.gives, Event.misses]

theorem Standing.other {o : Option Cell} (h : Standing n log o) {es : List Event}
    (he : ∀ e ∈ es, e.subject ≠ some n) : Standing n (log ++ es) o := by
  have hs : es.countP (·.starts n) = 0 := by
    apply List.countP_eq_zero.mpr
    intro e hm
    simp [(Event.of_subject_ne (he e hm)).1]
  have hc : es.countP (·.closes n) = 0 := by
    apply List.countP_eq_zero.mpr
    intro e hm
    simp [(Event.of_subject_ne (he e hm)).2.1]
  have hg : es.filterMap (·.gives n) = [] := by
    apply List.filterMap_eq_nil_iff.mpr
    intro e hm
    exact (Event.of_subject_ne (he e hm)).2.2.1
  simpa only [Standing, List.countP_append, List.filterMap_append, hs, hc, hg, List.append_nil,
    Nat.add_zero] using h

/-- A name may resolve to the type that it is bound to, and to `never` if it is circular. -/
theorem Standing.gave (h : Standing name log (some c))
    (hc : c.progress = .settled t ∨ c.progress = .underWay ∧ c.circular ∧ t = Ty.never) :
    Standing name (log ++ [.gave name t]) (some c) := by
  rcases hc with hp | ⟨hp, hc, rfl⟩
  · simp only [Standing, hp] at h ⊢
    obtain ⟨hs, hd, hg, hnever⟩ := h
    refine ⟨?_, ?_, ?_, hnever⟩
    · simpa [Event.starts] using hs
    · simpa [Event.closes] using hd
    · simpa [Event.gives, or_imp, forall_and] using hg
  · simp only [Standing, hp] at h ⊢
    obtain ⟨hs, hd, hg⟩ := h
    refine ⟨?_, ?_, ?_⟩
    · simpa [Event.starts] using hs
    · simpa [Event.closes] using hd
    · simpa [Event.gives, or_imp, forall_and, hc] using hg

/-- The name of a recipe that waits for a result. -/
def Wait.running : Wait → Option String
  | .cell name => some name
  | _ => none

/-- How the cell of a name can get on in one step. -/
inductive Turn : Option Progress → Option Progress → Prop
  | stay (p : Option Progress) : Turn p p
  | appear (recipe : Recipe Ty) : Turn none (some (.waiting recipe))
  | start (recipe : Recipe Ty) : Turn (some (.waiting recipe)) (some .underWay)
  | settle (t : Ty) : Turn (some .underWay) (some (.settled t))

namespace Session

structure Orderly (s : Session) : Prop where
  apart : s.env.names.Nodup
  running : s.env.resolving = s.waits.filterMap Wait.running
  once : s.env.resolving.Nodup
  busy : ∀ n ∈ s.env.resolving, ∃ c, s.env.find? n = some c ∧ c.progress = .underWay
  idle : s.task = .rest → s.waits = []
  standing : ∀ n, Standing n s.log (s.env.find? n)
  missed : ∀ n, s.log.countP (·.misses n) ≤ if n ∈ s.env.missing then 1 else 0
  told : s.env.diagnostics = s.log.filterMap Event.problem?

theorem orderly_start (requests : List Request) : (start requests).Orderly where
  apart := List.nodup_nil
  running := rfl
  once := List.nodup_nil
  busy _ h := by cases h
  idle _ := rfl
  standing _ := ⟨rfl, rfl, rfl⟩
  missed _ := Nat.zero_le _
  told := rfl

/-- A step that looks at the environment only. -/
theorem Orderly.quiet (h : s.Orderly) (he : s'.env = s.env) (hl : s'.log = s.log)
    (hw : s'.waits.filterMap Wait.running = s.waits.filterMap Wait.running)
    (hr : s'.task = .rest → s'.waits = []) : s'.Orderly where
  apart := he ▸ h.apart
  running := by rw [he, hw]; exact h.running
  once := he ▸ h.once
  busy := he ▸ h.busy
  idle := hr
  standing := by rw [he, hl]; exact h.standing
  missed := by rw [he, hl]; exact h.missed
  told := by rw [he, hl]; exact h.told

theorem Orderly.missed_other (h : s.Orderly) (he : ∀ n, e.misses n = false) :
    ∀ n, (s.log ++ [e]).countP (·.misses n) ≤ if n ∈ s.env.missing then 1 else 0 := by
  intro n
  simpa [he n] using h.missed n

theorem Orderly.told_other (h : s.Orderly) (he : e.problem? = none) :
    s.env.diagnostics = (s.log ++ [e]).filterMap Event.problem? := by
  simpa [he] using h.told

/-- A new name has a cell whose recipe waits. -/
theorem Orderly.define (h : s.Orderly) {cell : Cell} {recipe : Recipe Ty}
    (hn : s.env.isDefined cell.name = false) (hp : cell.progress = .waiting recipe)
    (hc : cell.circular = false) (todo : List Request) (answers : List (Except Fault Reply)) :
    Orderly { s with env.cells := s.env.cells ++ [cell], todo := todo, answers := answers } := by
  have hnone : s.env.find? cell.name = none := by simpa [isDefined] using hn
  refine ⟨?_, h.running, h.once, ?_, h.idle, ?_, h.missed, h.told⟩
  · have hnew : cell.name ∉ s.env.names := by
      intro hm
      obtain ⟨c, hcm, hcn⟩ := List.mem_map.mp hm
      have hdef := isDefined_of_mem hcm
      rw [hcn, hn] at hdef
      cases hdef
    have hnames : { s.env with cells := s.env.cells ++ [cell] }.names =
        s.env.names ++ [cell.name] := by simp [names]
    rw [hnames]
    apply List.Nodup.append h.apart (List.nodup_singleton _)
    intro n hm hm'
    rw [List.mem_singleton.mp hm'] at hm
    exact hnew hm
  · intro n hm
    obtain ⟨c, hf, hcp⟩ := h.busy n hm
    have hne : n ≠ cell.name := by
      rintro rfl
      rw [hnone] at hf
      cases hf
    exact ⟨c, (find?_extend_ne hne).trans hf, hcp⟩
  · intro n
    show Standing n s.log _
    by_cases hne : n = cell.name
    · subst hne
      have hs := h.standing cell.name
      rw [hnone] at hs
      rw [find?_extend_self hnone]
      simp only [Standing, hp]
      exact ⟨hc, hs⟩
    · rw [find?_extend_ne hne]
      exact h.standing n

/-- What was noted about the other names does not concern a name. -/
theorem Orderly.standing_of (h : s.Orderly) (name : String) {es : List Event}
    (he : ∀ e ∈ es, e.subject = some name) (hself : Standing name (s.log ++ es) (env.find? name))
    (hother : ∀ n, n ≠ name → env.find? n = s.env.find? n) (n : String) :
    Standing n (s.log ++ es) (env.find? n) := by
  by_cases hn : n = name
  · exact hn ▸ hself
  · rw [hother n hn]
    apply (h.standing n).other
    intro e hm hsub
    rw [he e hm] at hsub
    exact hn (Option.some.inj hsub).symm

theorem Orderly.busy_of (h : s.Orderly) (hr : s.env.Revises name c env) {running : List String}
    (hsub : ∀ n ∈ running, n ≠ name → n ∈ s.env.resolving)
    (hself : name ∈ running → c.progress = .underWay) :
    ∀ n ∈ running, ∃ c, env.find? n = some c ∧ c.progress = .underWay := by
  intro n hm
  by_cases hn : n = name
  · subst hn
    exact ⟨c, hr.self, hself hm⟩
  · obtain ⟨b, hb, hbp⟩ := h.busy n (hsub n hm hn)
    exact ⟨b, (hr.other n hn).trans hb, hbp⟩

theorem Orderly.unknown (h : s.Orderly) {span : Option Span} (hf : s.env.find? name = none)
    (hm : name ∉ s.env.missing) (r : Except Fault Ty) :
    Orderly { s with
      env := reportMissing name span s.env
      task := .back r
      log := s.log ++ [.unknown name (unknownName name span)] } := by
  have henv : reportMissing name span s.env =
      { s.env with missing := name :: s.env.missing }.report (unknownName name span) := by
    simp [reportMissing, hm]
  rw [henv]
  refine ⟨h.apart, h.running, h.once, h.busy, ?_, ?_, ?_, ?_⟩
  · intro ht
    cases ht
  · apply h.standing_of name (by simp [Event.subject]) _ fun _ _ => rfl
    have hs := h.standing name
    show Standing name _ (s.env.find? name)
    rw [hf] at hs ⊢
    simpa [Standing, Event.starts, Event.closes, Event.gives] using hs
  · intro n
    have hle := h.missed n
    by_cases hn : n = name
    · subst hn
      simpa [Event.misses, hm, Env.report] using hle
    · simpa [Event.misses, Ne.symm hn, hn, Env.report] using hle
  · simp [Env.report, h.told, Event.problem?]

/-- A name that is bound, or circular, is looked up again. -/
theorem Orderly.gave (h : s.Orderly) (hf : s.env.find? name = some c)
    (hc : c.progress = .settled t ∨ c.progress = .underWay ∧ c.circular ∧ t = Ty.never) :
    Orderly { s with task := .back (.ok t), log := s.log ++ [.gave name t] } := by
  refine ⟨h.apart, h.running, h.once, h.busy, ?_, ?_, h.missed_other fun _ => rfl,
    h.told_other rfl⟩
  · intro ht
    cases ht
  · apply h.standing_of name (by simp [Event.subject]) _ fun _ _ => rfl
    have hs := h.standing name
    rw [hf] at hs ⊢
    exact hs.gave hc

theorem Orderly.abandoned (h : s.Orderly) (hf : s.env.find? name = some c)
    (hp : c.progress = .underWay) (hc : c.circular = false) (r : Except Fault Ty) :
    Orderly { s with env := mark name s.env, task := .back r } := by
  have hr := revises_mark hf
  refine ⟨hr.names ▸ h.apart, h.running, h.once, ?_, ?_, ?_, h.missed, h.told⟩
  · exact h.busy_of hr (fun _ hm _ => hm) fun _ => hp
  · intro ht
    cases ht
  · have hlog : s.log = s.log ++ [] := by simp
    rw [hlog]
    apply h.standing_of name (by simp) _ hr.other
    have hs := h.standing name
    rw [hf] at hs
    rw [hr.self, List.append_nil]
    simp only [Standing, hp, hc] at hs ⊢
    obtain ⟨hstarts, hcloses, hgives⟩ := hs
    refine ⟨hstarts, hcloses.trans (Nat.zero_le _), ?_⟩
    intro t ht
    exact ⟨trivial, (hgives t ht).2⟩

theorem Orderly.circular (h : s.Orderly) (hf : s.env.find? name = some c)
    (hp : c.progress = .underWay) (hc : c.circular = false) (d : Diagnostic) :
    Orderly { s with
      env := (mark name s.env).report d
      task := .back (.ok Ty.never)
      log := s.log ++ [.circular name d, .gave name Ty.never] } := by
  have hr := revises_mark hf
  refine ⟨hr.names ▸ h.apart, h.running, h.once, ?_, ?_, ?_, ?_, ?_⟩
  · exact h.busy_of hr (fun _ hm _ => hm) fun _ => hp
  · intro ht
    cases ht
  · apply h.standing_of name (by simp [Event.subject]) _ hr.other
    have hs := h.standing name
    have hsplit : s.log ++ [.circular name d, .gave name Ty.never] =
        s.log ++ [.circular name d] ++ [.gave name Ty.never] := by simp
    rw [hf] at hs
    show Standing name _ ((mark name s.env).find? name)
    rw [hsplit, hr.self]
    refine Standing.gave ?_ (.inr ⟨hp, rfl, rfl⟩)
    simp only [Standing, hp, hc, Bool.toNat_false, Nat.le_zero] at hs ⊢
    obtain ⟨hstarts, hcloses, hgives⟩ := hs
    refine ⟨?_, ?_, ?_⟩
    · simpa [Event.starts] using hstarts
    · rw [List.countP_append, hcloses]
      simp [Event.closes]
    · intro t ht
      refine ⟨trivial, (hgives t ?_).2⟩
      simpa [Event.gives] using ht
  · intro n
    simpa [Event.misses, mark, update, Env.report] using h.missed n
  · simp [Event.problem?, mark, update, Env.report, h.told]

/-- A recipe starts whose name was not asked for before. -/
theorem Orderly.enter (h : s.Orderly) {recipe : Recipe Ty} (hf : s.env.find? name = some c)
    (hp : c.progress = .waiting recipe) :
    Orderly { s with
      env := Env.enter name s.env
      task := .work recipe
      waits := .cell name :: s.waits
      log := s.log ++ [.started name] } := by
  have hr := revises_enter hf
  have hnew : name ∉ s.env.resolving := by
    intro hm
    obtain ⟨b, hb, hbp⟩ := h.busy name hm
    rw [hf] at hb
    cases hb
    rw [hp] at hbp
    cases hbp
  refine ⟨hr.names ▸ h.apart, ?_, ?_, ?_, ?_, ?_, h.missed_other fun _ => rfl, h.told_other rfl⟩
  · show name :: s.env.resolving = _
    rw [h.running]
    rfl
  · exact List.nodup_cons.mpr ⟨hnew, h.once⟩
  · apply h.busy_of hr _ fun _ => rfl
    intro n hm hn
    exact (List.mem_cons.mp hm).resolve_left hn
  · intro ht
    cases ht
  · apply h.standing_of name (by simp [Event.subject]) _ hr.other
    have hs := h.standing name
    rw [hf] at hs
    rw [hr.self]
    simp only [Standing, hp] at hs ⊢
    obtain ⟨-, hstarts, hcloses, hgives⟩ := hs
    refine ⟨?_, ?_, ?_⟩
    · rw [List.countP_append, hstarts]
      simp [Event.starts]
    · rw [List.countP_append, hcloses]
      simp [Event.closes]
    · rw [List.filterMap_append, hgives]
      simp [Event.gives]

/-- The recipe that runs innermost. -/
theorem Orderly.innermost (h : s.Orderly) {waits : List Wait} (hw : s.waits = .cell name :: waits) :
    s.env.resolving = name :: waits.filterMap Wait.running ∧
      name ∉ waits.filterMap Wait.running ∧
        ∃ c, s.env.find? name = some c ∧ c.progress = .underWay := by
  have hrun : s.env.resolving = name :: waits.filterMap Wait.running := by
    rw [h.running, hw]
    rfl
  have honce := h.once
  rw [hrun] at honce
  refine ⟨hrun, (List.nodup_cons.mp honce).1, ?_⟩
  apply h.busy
  rw [hrun]
  exact List.mem_cons_self

theorem Orderly.fail (h : s.Orderly) {waits : List Wait} (hw : s.waits = .cell name :: waits)
    (ht : s.task ≠ .rest) : Orderly { s with env := leave s.env, waits := waits } := by
  obtain ⟨hrun, -, -⟩ := h.innermost hw
  have htail : (leave s.env).resolving = waits.filterMap Wait.running := by
    rw [leave, hrun]
    rfl
  refine ⟨h.apart, htail, ?_, ?_, ?_, h.standing, h.missed, h.told⟩
  · exact h.once.sublist (List.tail_sublist _)
  · intro n hm
    exact h.busy n (List.mem_of_mem_tail hm)
  · intro he
    exact (ht he).elim

/-- The recipe of a cell is done, and its name is bound to `never` if it is circular. -/
theorem Orderly.fill (h : s.Orderly) {waits : List Wait} {value : Ty}
    (hw : s.waits = .cell name :: waits)
    (hv : value = if s.env.isCircular name then Ty.never else t) :
    Orderly { s with
      env := filled name value s.env
      task := .back (.ok value)
      waits := waits
      log := s.log ++ [.gave name value] } := by
  obtain ⟨hrun, hnew, c, hf, hp⟩ := h.innermost hw
  have hr := revises_filled hf value
  have htail : (filled name value s.env).resolving = waits.filterMap Wait.running := by
    show s.env.resolving.tail = _
    rw [hrun]
    rfl
  have hnever : c.circular → value = Ty.never := by
    intro hc
    rw [hv, isCircular, hf]
    simp [hc]
  refine ⟨hr.names ▸ h.apart, htail, ?_, ?_, ?_, ?_, h.missed_other fun _ => rfl, h.told_other rfl⟩
  · exact h.once.sublist (List.tail_sublist _)
  · apply h.busy_of hr (fun n hm _ => List.mem_of_mem_tail hm)
    intro hm
    exact (hnew (htail ▸ hm)).elim
  · intro ht
    cases ht
  · apply h.standing_of name (by simp [Event.subject]) _ hr.other
    have hs := h.standing name
    rw [hf] at hs
    rw [hr.self]
    refine Standing.gave ?_ (.inl rfl)
    simp only [Standing, hp] at hs ⊢
    obtain ⟨hstarts, hcloses, hgives⟩ := hs
    refine ⟨hstarts, hcloses.trans (Bool.toNat_le _), ?_, hnever⟩
    intro t ht
    obtain ⟨hc, rfl⟩ := hgives t ht
    exact (hnever hc).symm

theorem Orderly.report (h : s.Orderly) (d : Diagnostic) (recipe : Recipe Ty) :
    Orderly { s with
      env := s.env.report d
      task := .work recipe
      log := s.log ++ [.told d] } := by
  refine ⟨h.apart, h.running, h.once, h.busy, ?_, ?_, h.missed_other fun _ => rfl, ?_⟩
  · intro ht
    cases ht
  · intro n
    apply (h.standing n).other
    simp [Event.subject]
  · simp [Env.report, Event.problem?, h.told]

theorem Orderly.postpone (h : s.Orderly) (duty : Obligation) (recipe : Recipe Ty) :
    Orderly { s with env := s.env.postpone duty, task := .work recipe } := by
  refine ⟨h.apart, h.running, h.once, h.busy, ?_, h.standing, h.missed, h.told⟩
  intro ht
  cases ht

/-- Every step keeps order. -/
theorem orderly_step (hs : Step s s') (h : s.Orderly) : s'.Orderly := by
  cases hs with
  | define ht hd hn => exact h.define hn rfl rfl _ _
  | unknown ht hf hm => exact h.unknown hf hm _
  | settled ht hf hp => exact h.gave hf (.inl hp)
  | circularAgain ht hf hp hc => exact h.gave hf (.inr ⟨hp, hc, rfl⟩)
  | circular ht hf hp hc hr hd => exact h.circular hf hp hc _
  | abandoned ht hf hp hc hr => exact h.abandoned hf hp hc _
  | enter ht hf hp => exact h.enter hf hp
  | report ht => exact h.report _ _
  | postpone ht => exact h.postpone _ _
  | fill ht hw hv => exact h.fill hw hv
  | fail ht hw => exact h.fail hw (by simp [ht])
  | redefine ht hd hn => exact h.quiet rfl rfl rfl h.idle
  | resolveNone ht hd hn => exact h.quiet rfl rfl rfl h.idle
  | resolve ht hd | unwrap ht hd | resolveAll ht hd hn =>
    exact h.quiet rfl rfl (by rw [h.idle ht]; rfl) (by simp)
  | askName ht | askType ht | hop ht => exact h.quiet rfl rfl rfl (by simp)
  | answerRecipe ht hw | answerChain ht hw | breakChain ht hw =>
    exact h.quiet rfl rfl (by rw [hw]; rfl) (by simp [ht])
  | answerOne ht hw | answerNext ht hw | answerAll ht hw | answerFault ht hw =>
    exact h.quiet rfl rfl (by rw [hw]; rfl) (by simp)
  | _ => exact h.quiet rfl rfl rfl (by simp)

theorem orderly_reaches {requests : List Request} (h : Reaches (start requests) s) :
    s.Orderly := by
  induction h with
  | refl => exact orderly_start requests
  | tail _ hs ih => exact orderly_step hs ih

theorem turn_of_revises {env' : Env} (hr : env.Revises name c env')
    (ht : Turn ((env.find? name).map (·.progress)) (some c.progress)) (n : String) :
    Turn ((env.find? n).map (·.progress)) ((env'.find? n).map (·.progress)) := by
  by_cases hn : n = name
  · subst hn
    rw [hr.self]
    exact ht
  · rw [hr.other n hn]
    exact .stay _

/-- In one step a cell appears, starts, settles or stays as it is. -/
theorem turn_step (hs : Step s s') (h : s.Orderly) (n : String) :
    Turn ((s.env.find? n).map (·.progress)) ((s'.env.find? n).map (·.progress)) := by
  cases hs with
  | @define todo name recipe span ht hd hn =>
    have hnone : s.env.find? name = none := by simpa [isDefined] using hn
    have hcell : (⟨name, span, .waiting recipe, false⟩ : Cell).name = name := rfl
    by_cases hne : n = name
    · subst hne
      rw [hnone, find?_extend_self (hcell ▸ hnone)]
      exact .appear recipe
    · rw [find?_extend_ne (hcell ▸ hne)]
      exact .stay _
  | @unknown name span ht hf hm =>
    have hcells : (reportMissing name span s.env).cells = s.env.cells := by
      unfold reportMissing
      split <;> rfl
    simp only [find?, hcells]
    exact .stay _
  | circular ht hf hp hc hr hd =>
    apply turn_of_revises (revises_mark hf)
    rw [hf]
    exact .stay _
  | abandoned ht hf hp hc hr =>
    apply turn_of_revises (revises_mark hf)
    rw [hf]
    exact .stay _
  | enter ht hf hp =>
    apply turn_of_revises (revises_enter hf)
    rw [hf, Option.map_some, hp]
    exact .start _
  | fill ht hw hv =>
    obtain ⟨-, -, c, hf, hp⟩ := h.innermost hw
    apply turn_of_revises (revises_filled hf _)
    rw [hf, Option.map_some, hp]
    exact .settle _
  | _ => exact .stay _

theorem labelled_step (hs : Step s s') (h : ∀ e ∈ s.log, e.Labelled) :
    ∀ e ∈ s'.log, e.Labelled := by
  cases hs with
  | unknown ht hf hm =>
    apply List.forall_mem_append.mpr ⟨h, _⟩
    simp [Event.Labelled]
  | circular ht hf hp hc hr hd =>
    apply List.forall_mem_append.mpr ⟨h, _⟩
    simp [Event.Labelled, hd]
  | settled | circularAgain | enter | report | fill =>
    apply List.forall_mem_append.mpr ⟨h, _⟩
    simp [Event.Labelled]
  | _ => exact h

theorem labelled_reaches {requests : List Request} (h : Reaches (start requests) s) :
    ∀ e ∈ s.log, e.Labelled := by
  induction h with
  | refl =>
    intro e he
    cases he
  | tail _ hs ih => exact labelled_step hs ih

theorem Orderly.counts (h : s.Orderly) (n : String) :
    s.log.countP (·.starts n) ≤ 1 ∧ s.log.countP (·.closes n) ≤ 1 ∧
      s.log.countP (·.misses n) ≤ 1 := by
  have hs := h.standing n
  have hm := h.missed n
  have hmiss : s.log.countP (·.misses n) ≤ 1 := by
    split at hm <;> omega
  cases hf : s.env.find? n with
  | none =>
    simp only [hf, Standing] at hs
    omega
  | some c =>
    rw [hf] at hs
    have hbit := Bool.toNat_le c.circular
    cases hp : c.progress with
    | _ =>
      simp only [Standing, hp] at hs
      omega

theorem Orderly.gave_eq (h : s.Orderly) (ht : .gave n t ∈ s.log) (hu : .gave n u ∈ s.log) :
    t = u := by
  have hmem : ∀ {v : Ty}, Event.gave n v ∈ s.log → v ∈ s.log.filterMap (·.gives n) := by
    intro v hv
    exact List.mem_filterMap.mpr ⟨_, hv, by simp [Event.gives]⟩
  have hs := h.standing n
  cases hf : s.env.find? n with
  | none =>
    rw [hf] at hs
    have hnil := hmem ht
    rw [hs.2.2] at hnil
    cases hnil
  | some c =>
    rw [hf] at hs
    cases hp : c.progress with
    | waiting recipe =>
      simp only [Standing, hp] at hs
      have hnil := hmem ht
      rw [hs.2.2.2] at hnil
      cases hnil
    | underWay =>
      simp only [Standing, hp] at hs
      rw [(hs.2.2 t (hmem ht)).2, (hs.2.2 u (hmem hu)).2]
    | settled v =>
      simp only [Standing, hp] at hs
      rw [hs.2.2.1 t (hmem ht), hs.2.2.1 u (hmem hu)]

end Session

/-- Order is kept through every sequence of requests, with any recipes, which may ask for names in
turn and stop at faults. The session leads to the answers, and at each of its steps: no recipe has
started twice; all that a defined name was resolved to is one type; no name is reported twice as
circular, nor as undefined, and all reports are those; a circular name that is bound stands for
`never`; the cell of a name only appears, starts and settles, in this order; and between requests
no recipe is running. -/
theorem session_keeps_order (requests : List Request) :
    (∃ log, Session.Reaches (.start requests) ⟨(Request.serveAll requests Env.empty).2, .rest, [],
      log, [], (Request.serveAll requests Env.empty).1⟩) ∧
    ∀ s, Session.Reaches (.start requests) s →
      (∀ n, s.log.countP (·.starts n) ≤ 1) ∧
      (∀ n t u, .gave n t ∈ s.log → .gave n u ∈ s.log → t = u) ∧
      (∀ n, s.log.countP (·.closes n) ≤ 1 ∧ s.log.countP (·.misses n) ≤ 1) ∧
      (s.env.diagnostics = s.log.filterMap Event.problem? ∧ ∀ e ∈ s.log, e.Labelled) ∧
      (∀ c ∈ s.env.cells, ∀ t, c.progress = .settled t → c.circular → t = Ty.never) ∧
      (∀ s', Session.Step s s' → ∀ n,
        Turn ((s.env.find? n).map (·.progress)) ((s'.env.find? n).map (·.progress))) ∧
      (s.task = .rest → s.env.resolving = []) := by
  refine ⟨reaches_serveAll Env.empty requests [] [], ?_⟩
  intro s hs
  have h := Session.orderly_reaches hs
  refine ⟨fun n => (h.counts n).1, fun n t u => h.gave_eq, fun n => (h.counts n).2,
    ⟨h.told, Session.labelled_reaches hs⟩, ?_, fun s' hstep n => Session.turn_step hstep h n, ?_⟩
  · intro c hc t hp
    have hst := h.standing c.name
    rw [find?_of_mem h.apart hc] at hst
    simp only [Standing, hp] at hst
    exact hst.2.2.2
  · intro ht
    rw [h.running, h.idle ht]
    rfl

end ShapeCheck.Env
