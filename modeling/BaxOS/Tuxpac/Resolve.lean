import BaxOS.Tuxpac.Packages

/-!
# What is to be installed

`tuxpac -s` and `-u`: the packages wanted are looked for in the index, a round at a time, each round
for what the packages found in the one before depend on (`resolve`); then what was planned is
unpacked from its end, and configured in that order (`unpacks`, `configures`).
-/

namespace BaxOS.Tuxpac

/-- `PLAN`, `WANTS`, `WTEXT` and `NAMES`. -/
def planRoom : ℕ := 1024
def wantsRoom : ℕ := 2048
def textRoom : ℕ := 65536
def namesRoom : ℕ := 32768

/-- `NONE`. -/
def noRank : ℕ := 255

/-- `DEP`, `TARGET` and `UPGRADE`. -/
inductive Asked
  | dep
  | target
  | upgrade
  deriving DecidableEq

/-- `struct want`, without what was found for it. -/
structure Want where
  text : Text
  kind : Asked
  deriving DecidableEq

/-- What was found for a want: how well it answers, the line and its version. -/
structure Found where
  rank : ℕ
  line : Option Line
  ver : Text

/-! ### Finding what is wanted -/

/-- `better`. -/
def better (x : Found) (r : ℕ) (l : Line) : Found :=
  let ver := l.ver.take (verRoom - 1)
  if r < x.rank ∨ 0 < vcmp ver x.ver then ⟨r, some l, ver⟩ else x

/-- `match`, of one want: its alternatives from the one of rank `r` on. -/
def matchLine (kind : Asked) (l : Line) : List Text → ℕ → Found → Found
  | [], _, x => x
  | a :: as, r, x =>
    if x.rank < r then x
    else if a = l.name then better x r l
    else if kind ≠ .upgrade ∧ r + 1 ≤ x.rank ∧ listed l.prov a then better x (r + 1) l
    else matchLine kind l as (r + 2) x

/-- The line of the index that answers a want best. -/
def choose (index : List Line) (x : Want) : Option Line :=
  let found := index.foldl (fun f l => matchLine x.kind l (alternatives x.text) 0 f) ⟨noRank, none, []⟩
  if found.rank = noRank then none else found.line

/-! ### Rounds -/

/-- A package of the plan. -/
structure Planned where
  line : Line
  asked : Bool
  deriving DecidableEq

/-- The plan, the next round's wants, and what was said not to be found. -/
structure Work where
  plan : List Planned
  wants : List Want
  missing : List Text
  deriving DecidableEq

/-- Why there is no plan. -/
inductive Failure
  | notFound (name : Text)
  | tooMany
  deriving DecidableEq

/-- `planned`. -/
def planned (plan : List Planned) (name : Text) : Bool := plan.any fun p => p.line.name = name

/-- `satisfied`: whether an alternative of a group is installed, or about to be. -/
def satisfied (db : List Inst) (plan : List Planned) (group : Text) : Bool :=
  (alternatives group).any fun a => planned plan a || db.any fun p => answers p a

/-- `want`, of the next round beside the wants of this one. -/
def want (now next : List Want) (x : Want) : Option (List Want) :=
  if next.any fun y => y.text = x.text then some next
  else if now.length + next.length = wantsRoom ∨
      textRoom < ((now ++ next).map fun y => y.text.length).sum + x.text.length then none
  else some (next ++ [x])

/-- What a package needs: the groups of its `Depends`, and what `implied` says. -/
def needed (l : Line) : List Text :=
  groups l.deps ++ (implied.filter fun x => x.1 = l.name).map Prod.snd

/-- What a package newly planned needs and is not there, wanted. -/
def ask (db : List Inst) (now : List Want) (plan : List Planned) :
    List Text → List Want → Option (List Want)
  | [], next => some next
  | g :: gs, next =>
    if satisfied db plan g then ask db now plan gs next
    else
      match want now next ⟨g, .dep⟩ with
      | none => none
      | some next => ask db now plan gs next

/-- Whether the line found for a want is not to be planned, for what is installed. -/
def idle (db : List Inst) (kind : Asked) (l : Line) : Bool :=
  match kind, findInst db l.name with
  | .dep, some _ => true
  | .upgrade, some k => vcmp l.ver ((db[k]?.map Inst.ver).getD []) ≤ 0
  | _, _ => false

/-- The flag a package is planned with: whether it was asked for, then or before. -/
def flag (db : List Inst) (kind : Asked) (l : Line) : Bool :=
  match kind, findInst db l.name with
  | .target, _ => true
  | _, some k => db[k]?.any Inst.asked
  | _, none => false

/-- A turn of `resolve`, at one want of the round. -/
def turn (index : List Line) (db : List Inst) (now : List Want) (w : Work) (x : Want) :
    Except Failure Work :=
  match choose index x with
  | none =>
    match x.kind with
    | .target => .error (.notFound x.text)
    | .dep => .ok { w with missing := w.missing ++ [x.text] }
    | .upgrade => .ok w
  | some l =>
    if planned w.plan l.name || idle db x.kind l then .ok w
    else if w.plan.length = planRoom ∨
        namesRoom < (w.plan.map fun p => p.line.name.length + 1).sum + l.name.length + 1 then
      .error .tooMany
    else
      let plan := w.plan ++ [⟨l, flag db x.kind l⟩]
      match ask db now plan (needed l) w.wants with
      | none => .error .tooMany
      | some wants => .ok { w with plan, wants }

/-- A round. -/
def round (index : List Line) (db : List Inst) (now : List Want) : List Want → Work → Except Failure Work
  | [], w => .ok w
  | x :: xs, w =>
    match turn index db now w x with
    | .error e => .error e
    | .ok w => round index db now xs w

/-- Rounds, up to so many, as long as something is wanted. -/
def rounds (index : List Line) (db : List Inst) : ℕ → Work → Option (Except Failure Work)
  | n, w =>
    if w.wants = [] then some (.ok w)
    else
      match n with
      | 0 => none
      | n + 1 =>
        match round index db w.wants w.wants { w with wants := [] } with
        | .error e => some (.error e)
        | .ok w => rounds index db n w

/-- `resolve`, of what is wanted at first; a plan that is full takes no more rounds than this. -/
def resolve (index : List Line) (db : List Inst) (wants : List Want) : Option (Except Failure Work) :=
  rounds index db (planRoom + 2) ⟨[], wants, []⟩

/-! ### Installing the plan -/

/-- The order in which `get` unpacks a plan, where every package of it can be. -/
def unpacks (plan : List Line) : List Line := plan.reverse

/-- How much of `unpacked` is kept for each package there is to note. -/
def unpackedRoom : ℕ := 16384

/-- What is noted of a package that is unpacked: its name and the version it replaced. -/
def noted (db : List Inst) (l : Line) : ℕ :=
  let old := ((findInst db l.name).bind fun k => db[k]?).map Inst.ver
  let from_ := (old.filter fun v => v.length ≤ verRoom).getD []
  l.name.length + 1 + max 1 from_.length + 1

/-- The packages `configure` goes through: those noted when they were unpacked. -/
def configures (db : List Inst) : ℕ → List Line → List Line
  | _, [] => []
  | len, l :: ls =>
    if len + l.name.length + verRoom + 4 < unpackedRoom then l :: configures db (len + noted db l) ls
    else configures db len ls

end BaxOS.Tuxpac
