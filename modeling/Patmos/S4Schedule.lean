import Mathlib.Algebra.Field.ZMod
import Patmos.TdmRoutes

/-!
# Schedules of the S4NoC

A schedule is a list of lines, one for each route: blanks up to the slot in which a word enters,
the directions it takes, and `l` when it leaves.  `getSchedule` reads the lines into a table that
gives for every slot and every output port the input port.  Entries that no line sets are 0, which
is the north port.
-/

namespace Patmos.S4Noc

open TdmRoutes

/-! ### Lines -/

/-- The directions of a link. -/
inductive Dir where
  | n
  | e
  | s
  | w
deriving DecidableEq, Repr

/-- The characters of a line. -/
inductive Sym where
  | dir (d : Dir)
  | l
  | blank
deriving DecidableEq, Repr

/-- The ports of a router; `none` is the local one. -/
abbrev Port := Option Dir

def NORTH : Port := some .n
def EAST : Port := some .e
def SOUTH : Port := some .s
def WEST : Port := some .w
def LOCAL : Port := none

/-- The line of a route. -/
def line (r : Route Dir) : List Sym :=
  List.replicate r.start .blank ++ (r.path.map .dir ++ [.l])

namespace ScheduleTable

open Dir

def FourNodes : List (Route Dir) :=
  [⟨0, [n, e]⟩, ⟨2, [n]⟩, ⟨3, [e]⟩]

def NineNodes : List (Route Dir) :=
  [⟨0, [n, e]⟩, ⟨1, [n, w]⟩, ⟨2, [e, s]⟩, ⟨3, [w, s]⟩, ⟨5, [n]⟩, ⟨6, [e]⟩, ⟨7, [s]⟩, ⟨8, [w]⟩]

def SixTeenNodes : List (Route Dir) :=
  [⟨0, [n, n, e, e]⟩, ⟨1, [e, s]⟩, ⟨3, [n, e, e]⟩, ⟨4, [n, n, e]⟩, ⟨5, [w, n, n]⟩, ⟨7, [e, e, s]⟩,
    ⟨8, [n]⟩, ⟨9, [n, e]⟩, ⟨10, [n, w]⟩, ⟨11, [n, n]⟩, ⟨12, [e, e]⟩, ⟨13, [s, w]⟩, ⟨15, [e]⟩,
    ⟨16, [s]⟩, ⟨17, [w]⟩]

def TwentyFiveNodes : List (Route Dir) :=
  [⟨0, [n, n, e, e]⟩, ⟨1, [s, s, w, w]⟩, ⟨2, [n]⟩, ⟨3, [n, n, w, w]⟩, ⟨4, [e, e, s, s]⟩, ⟨5, [s]⟩,
    ⟨6, [n, e, e]⟩, ⟨7, [n, w, w]⟩, ⟨8, [n, n, e]⟩, ⟨9, [s, w, w]⟩, ⟨10, [n, n, w]⟩,
    ⟨11, [e, s, s]⟩, ⟨12, [e, e, s]⟩, ⟨14, [n, e]⟩, ⟨15, [s, s, w]⟩, ⟨16, [e]⟩, ⟨17, [n, w]⟩,
    ⟨18, [n, n]⟩, ⟨19, [e, s]⟩, ⟨20, [e, e]⟩, ⟨21, [s, w]⟩, ⟨22, [s, s]⟩, ⟨23, [w, w]⟩, ⟨25, [w]⟩]

def ThirtySixNodes : List (Route Dir) :=
  [⟨0, [n, n, n, e, e, e]⟩, ⟨1, [e, e, s, s]⟩, ⟨2, [s, w]⟩, ⟨4, [n, n, e, e, e]⟩,
    ⟨5, [w, w, n, n, n]⟩, ⟨6, [n, w]⟩, ⟨7, [s, s, w, w]⟩, ⟨9, [e, e, e, s, s]⟩,
    ⟨10, [n, n, n, e, e]⟩, ⟨11, [w, w]⟩, ⟨13, [n, w, w]⟩, ⟨14, [n, e, e, e]⟩, ⟨15, [n, n, w, w]⟩,
    ⟨16, [s]⟩, ⟨17, [n, n, e, e]⟩, ⟨18, [e, n, n, n]⟩, ⟨19, [w]⟩, ⟨20, [s, w, w]⟩,
    ⟨21, [e, e, e, s]⟩, ⟨22, [n, n, n, w]⟩, ⟨24, [e, s, s]⟩, ⟨25, [n, e, e]⟩, ⟨26, [n, n, e]⟩,
    ⟨27, [s, s, w]⟩, ⟨28, [n, n, w]⟩, ⟨29, [e, e, s]⟩, ⟨30, [n, n, n]⟩, ⟨31, [e, e, e]⟩,
    ⟨33, [n, e]⟩, ⟨34, [n, n]⟩, ⟨35, [e, s]⟩, ⟨36, [e, e]⟩, ⟨37, [s, s]⟩, ⟨39, [n]⟩, ⟨40, [e]⟩]

def FourtyNineNodes : List (Route Dir) :=
  [⟨0, [n, n, n, e, e, e]⟩, ⟨1, [s, s, s, w, w, w]⟩, ⟨2, [w, w]⟩, ⟨4, [n, n, n, w, w, w]⟩,
    ⟨5, [s, s, s]⟩, ⟨6, [e, e, e, s, s, s]⟩, ⟨8, [n, n, e, e, e]⟩, ⟨10, [n, n, n, e, e]⟩,
    ⟨11, [w, w, w]⟩, ⟨12, [s, s, w, w, w]⟩, ⟨13, [n, n, n]⟩, ⟨14, [s, s, s, w, w]⟩,
    ⟨15, [e, e, s, s, s]⟩, ⟨16, [n, e]⟩, ⟨17, [n, n, w, w, w]⟩, ⟨18, [e, e, e, s, s]⟩,
    ⟨19, [n, n, n, w, w]⟩, ⟨20, [s]⟩, ⟨21, [e, e, s, s]⟩, ⟨22, [n, e, e, e]⟩, ⟨23, [n, w, w, w]⟩,
    ⟨24, [n, n, e, e]⟩, ⟨26, [s, w, w, w]⟩, ⟨27, [n, n, n, e]⟩, ⟨28, [s, s, w, w]⟩,
    ⟨29, [e, s, s, s]⟩, ⟨30, [n, n, n, w]⟩, ⟨31, [e, e, e, s]⟩, ⟨33, [n, n, w, w]⟩, ⟨34, [e, e]⟩,
    ⟨35, [s, s, s, w]⟩, ⟨36, [n, w]⟩, ⟨37, [n, e, e]⟩, ⟨38, [n, w, w]⟩, ⟨39, [n, n, e]⟩,
    ⟨40, [s, w, w]⟩, ⟨41, [n, n, w]⟩, ⟨42, [e, s, s]⟩, ⟨43, [e, e, s]⟩, ⟨45, [e, e, e]⟩,
    ⟨46, [s, s, w]⟩, ⟨48, [n, n]⟩, ⟨49, [e, s]⟩, ⟨51, [s, w]⟩, ⟨52, [s, s]⟩, ⟨54, [n]⟩, ⟨55, [e]⟩,
    ⟨56, [w]⟩]

def SixtyFourNodes : List (Route Dir) :=
  [⟨0, [n, n, n, n, e, e, e, e]⟩, ⟨1, [e, e, e, s, s, s]⟩, ⟨2, [s, w, w, w]⟩, ⟨3, [s]⟩, ⟨4, [n]⟩,
    ⟨5, [n, n, n, e, e, e, e]⟩, ⟨6, [w, w, w, n, n, n, n]⟩, ⟨8, [s, s, s, w, w, w]⟩, ⟨9, [w, w]⟩,
    ⟨11, [s, s, s, w, w]⟩, ⟨12, [e, e, e, e, s, s, s]⟩, ⟨13, [n, n, n, n, e, e, e]⟩,
    ⟨14, [s, s, w, w]⟩, ⟨16, [e]⟩, ⟨17, [n, w, w, w]⟩, ⟨18, [n, n, e, e, e, e]⟩, ⟨19, [s, s, w]⟩,
    ⟨21, [n, n, n, e, e, e]⟩, ⟨22, [w, w, n, n, n, n]⟩, ⟨23, [s, w, w]⟩, ⟨24, [s, s, w, w, w]⟩,
    ⟨26, [s, s, s, w]⟩, ⟨28, [n, n, n, w, w, w]⟩, ⟨29, [e, e, n, n, n, n]⟩,
    ⟨30, [s, s, e, e, e, e]⟩, ⟨31, [e, s]⟩, ⟨34, [w, w, w]⟩, ⟨35, [n, e, e, e, e]⟩,
    ⟨36, [n, n, w, w, w]⟩, ⟨37, [s, s]⟩, ⟨38, [n, n, n, w, w]⟩, ⟨39, [s, s, s]⟩,
    ⟨40, [e, n, n, n, n]⟩, ⟨41, [e, e, s, s, s]⟩, ⟨42, [s, w]⟩, ⟨43, [e, e, e, s, s]⟩,
    ⟨45, [n, n, e, e, e]⟩, ⟨46, [w]⟩, ⟨47, [n, n, n, e, e]⟩, ⟨50, [n, n, n, n, w]⟩,
    ⟨52, [e, e, e, e, s]⟩, ⟨54, [n, w]⟩, ⟨55, [n, e, e, e]⟩, ⟨57, [n, n, e, e]⟩,
    ⟨59, [n, n, n, e]⟩, ⟨61, [e, s, s, s]⟩, ⟨62, [n, n, n, w]⟩, ⟨63, [e, e, s, s]⟩,
    ⟨65, [n, n, w, w]⟩, ⟨66, [e, e, e, s]⟩, ⟨67, [n, n, n, n]⟩, ⟨69, [e, e, e, e]⟩,
    ⟨71, [n, w, w]⟩, ⟨72, [n, e, e]⟩, ⟨73, [n, n, e]⟩, ⟨75, [n, n, w]⟩, ⟨76, [e, s, s]⟩,
    ⟨77, [n, n, n]⟩, ⟨78, [e, e, s]⟩, ⟨80, [e, e, e]⟩, ⟨82, [n, e]⟩, ⟨83, [n, n]⟩, ⟨84, [e, e]⟩]

def EightyOneNodes : List (Route Dir) :=
  [⟨0, [n, n, n, n, e, e, e, e]⟩, ⟨1, [s, s, s, s, w, w, w, w]⟩, ⟨2, [w, w, w]⟩, ⟨3, [e]⟩,
    ⟨5, [n, n, n, n, w, w, w, w]⟩, ⟨6, [s, s, s, s]⟩, ⟨8, [e, e, e, e, s, s, s, s]⟩,
    ⟨10, [n, n, n, e, e, e, e]⟩, ⟨11, [s]⟩, ⟨13, [n, n, n, n, e, e, e]⟩, ⟨14, [w, w, w, w]⟩,
    ⟨16, [s, s, s, w, w, w, w]⟩, ⟨17, [n, n, n, n]⟩, ⟨18, [w]⟩, ⟨19, [s, s, s, s, w, w, w]⟩,
    ⟨20, [e, e, e, s, s, s, s]⟩, ⟨21, [n, n, e]⟩, ⟨23, [n, n, n, w, w, w, w]⟩,
    ⟨24, [e, e, e, e, s, s, s]⟩, ⟨26, [n, n, n, n, w, w, w]⟩, ⟨28, [e, e, e, e]⟩,
    ⟨30, [n, n, e, e, e, e]⟩, ⟨31, [s, s, w, w, w, w]⟩, ⟨33, [n, n, n, e, e, e]⟩,
    ⟨34, [s, s, s, w, w, w]⟩, ⟨36, [n, n, n, n, e, e]⟩, ⟨37, [s, s, s, s, w, w]⟩, ⟨40, [n]⟩,
    ⟨41, [n, n, w, w, w, w]⟩, ⟨42, [e, e, e, s, s, s]⟩, ⟨43, [s, s]⟩, ⟨44, [n, n, n, w, w, w]⟩,
    ⟨46, [e, e, s, s, s, s]⟩, ⟨47, [n, n, n, n, w, w]⟩, ⟨48, [e, e, e, e, s, s]⟩,
    ⟨51, [n, e, e, e, e]⟩, ⟨52, [n, w, w, w, w]⟩, ⟨54, [n, n, e, e, e]⟩, ⟨56, [s, w, w, w, w]⟩,
    ⟨57, [n, n, n, e, e]⟩, ⟨59, [s, s, w, w, w]⟩, ⟨60, [n, n, n, n, e]⟩, ⟨61, [s, s, s, w, w]⟩,
    ⟨63, [e, s, s, s, s]⟩, ⟨64, [n, n, n, n, w]⟩, ⟨66, [e, e, s, s, s]⟩, ⟨68, [n, n, w, w, w]⟩,
    ⟨69, [e, e, e, s, s]⟩, ⟨70, [n, n, n, w, w]⟩, ⟨72, [e, e, e, e, s]⟩, ⟨74, [n, w, w, w]⟩,
    ⟨75, [n, e, e, e]⟩, ⟨76, [n, n, n, e]⟩, ⟨77, [s, s, s, s, w]⟩, ⟨79, [n, n, e, e]⟩,
    ⟨81, [s, w, w, w]⟩, ⟨82, [n, e]⟩, ⟨83, [s, s, w, w]⟩, ⟨84, [n, n, n, w]⟩, ⟨85, [e, s, s, s]⟩,
    ⟨87, [n, n, w, w]⟩, ⟨88, [e, e, s, s]⟩, ⟨90, [e, e, e, s]⟩, ⟨91, [n, w]⟩, ⟨92, [n, e, e]⟩,
    ⟨93, [n, w, w]⟩, ⟨94, [s, s, s, w]⟩, ⟨95, [n, n]⟩, ⟨96, [e, e, s]⟩, ⟨97, [s, w, w]⟩,
    ⟨98, [n, n, w]⟩, ⟨99, [e, s, s]⟩, ⟨100, [n, n, n]⟩, ⟨101, [e, e, e]⟩, ⟨102, [s, s, w]⟩,
    ⟨104, [s, s, s]⟩, ⟨106, [e, s]⟩, ⟨107, [e, e]⟩, ⟨108, [s, w]⟩, ⟨110, [w, w]⟩]

def OneHundredNodes : List (Route Dir) :=
  [⟨0, [n, n, n, n, n, e, e, e, e, e]⟩, ⟨1, [e, e, e, e, s, s, s, s]⟩, ⟨2, [s, w, w, w, w]⟩,
    ⟨3, [s, s]⟩, ⟨5, [n]⟩, ⟨6, [n, n, n, n, e, e, e, e, e]⟩, ⟨7, [w, w, w, w, n, n, n, n, n]⟩,
    ⟨9, [s, s, s, s, w, w, w, w]⟩, ⟨10, [n, w, w]⟩, ⟨13, [s]⟩, ⟨14, [s, s, s, w, w, w, w]⟩,
    ⟨15, [e, e, e, e, e, s, s, s, s]⟩, ⟨16, [n, n, n, n, n, e, e, e, e]⟩, ⟨17, [s, s, s]⟩,
    ⟨21, [n, w, w, w, w]⟩, ⟨22, [n, n, n, e, e, e, e, e]⟩, ⟨24, [s, s, s, s]⟩, ⟨25, [n, w]⟩,
    ⟨26, [n, n, n, n, e, e, e, e]⟩, ⟨27, [w, w, w, n, n, n, n, n]⟩, ⟨29, [s, s, s, s, w, w, w]⟩,
    ⟨30, [w, w, w]⟩, ⟨33, [s, s, s, w, w, w]⟩, ⟨34, [e, e, s]⟩, ⟨35, [n, n, n, n, w, w, w, w]⟩,
    ⟨36, [e, e, e, n, n, n, n, n]⟩, ⟨37, [s, s, s, e, e, e, e, e]⟩, ⟨39, [e, s]⟩,
    ⟨41, [s, s, w, w, w, w]⟩, ⟨44, [n, n, e, e, e, e, e]⟩, ⟨45, [e, s, s, s, s]⟩,
    ⟨46, [n, n, w, w, w, w]⟩, ⟨47, [w]⟩, ⟨48, [n, n, n, e, e, e, e]⟩, ⟨51, [n, n, n, n, e, e, e]⟩,
    ⟨52, [w, w, w, n, n, n, n]⟩, ⟨54, [s, s, s, s, w, w]⟩, ⟨55, [w, w]⟩,
    ⟨58, [e, e, e, s, s, s, s]⟩, ⟨59, [n, n, n, w, w, w, w]⟩, ⟨60, [s, w]⟩,
    ⟨61, [e, e, n, n, n, n, n]⟩, ⟨63, [e, e, e, e, s, s, s]⟩, ⟨65, [s, s, e, e, e, e, e]⟩,
    ⟨67, [w, w, w, w]⟩, ⟨68, [n, n, n, n, n, w, w]⟩, ⟨70, [s, w, w]⟩, ⟨72, [e, e, s, s, s, s]⟩,
    ⟨73, [n, e, e, e, e, e]⟩, ⟨74, [n, n, n, w, w, w]⟩, ⟨78, [n, n, e, e, e, e]⟩,
    ⟨79, [e, n, n, n, n, n]⟩, ⟨81, [s, s, w, w, w]⟩, ⟨83, [s, s, s, w, w]⟩,
    ⟨84, [e, e, e, s, s, s]⟩, ⟨85, [n, n, n, e, e, e]⟩, ⟨88, [n, n, n, n, e, e]⟩,
    ⟨90, [s, s, s, s, w]⟩, ⟨91, [e]⟩, ⟨92, [n, n, n, n, n, w]⟩, ⟨94, [e, e, e, e, s, s]⟩,
    ⟨95, [s, s, s, w]⟩, ⟨97, [n, n, n, n, w, w]⟩, ⟨98, [e, e, e, e, e, s]⟩, ⟨101, [s, s, w, w]⟩,
    ⟨102, [n, e, e, e, e]⟩, ⟨103, [n, n, w, w, w]⟩, ⟨105, [n, n, e, e, e]⟩, ⟨106, [s, s, w]⟩,
    ⟨107, [n, n, n, e, e]⟩, ⟨109, [s, w, w, w]⟩, ⟨110, [n, n, n, n, e]⟩, ⟨112, [e, e, s, s, s]⟩,
    ⟨114, [n, n, n, n, w]⟩, ⟨115, [e, e, e, s, s]⟩, ⟨118, [n, n, n, w, w]⟩, ⟨119, [e, e, e, e, s]⟩,
    ⟨121, [n, n, n, n, n]⟩, ⟨123, [e, e, e, e, e]⟩, ⟨126, [n, w, w, w]⟩, ⟨127, [n, e, e, e]⟩,
    ⟨129, [n, n, e, e]⟩, ⟨131, [n, n, n, e]⟩, ⟨133, [e, s, s, s]⟩, ⟨134, [n, n, n, w]⟩,
    ⟨135, [e, e, s, s]⟩, ⟨137, [n, n, w, w]⟩, ⟨138, [e, e, e, s]⟩, ⟨139, [n, n, n, n]⟩,
    ⟨141, [e, e, e, e]⟩, ⟨144, [n, e, e]⟩, ⟨145, [n, n, e]⟩, ⟨147, [n, n, w]⟩, ⟨148, [e, s, s]⟩,
    ⟨149, [n, n, n]⟩, ⟨150, [e, e, e]⟩, ⟨152, [n, e]⟩, ⟨153, [n, n]⟩, ⟨154, [e, e]⟩]

end ScheduleTable

/-- The routes of the `n` by `n` network, from 2 to 10. -/
def routes : ℕ → List (Route Dir)
  | 2 => ScheduleTable.FourNodes
  | 3 => ScheduleTable.NineNodes
  | 4 => ScheduleTable.SixTeenNodes
  | 5 => ScheduleTable.TwentyFiveNodes
  | 6 => ScheduleTable.ThirtySixNodes
  | 7 => ScheduleTable.FourtyNineNodes
  | 8 => ScheduleTable.SixtyFourNodes
  | 9 => ScheduleTable.EightyOneNodes
  | 10 => ScheduleTable.OneHundredNodes
  | _ => []

/-! ### Reading a schedule -/

abbrev Table := ℕ → Port → Port

def port : Sym → Port
  | .dir .n => NORTH
  | .dir .e => EAST
  | .dir .s => SOUTH
  | .dir .w => WEST
  | .l => LOCAL
  | .blank => NORTH

/-- `nextFrom`; nothing comes after `l`. -/
def nextFrom : Sym → Option Sym
  | .dir .n => some (.dir .s)
  | .dir .e => some (.dir .w)
  | .dir .s => some (.dir .n)
  | .dir .w => some (.dir .e)
  | .l => none
  | .blank => some .l

/-- The entry of output port `p` in slot `j` is set. -/
def setEntry (T : Table) (j : ℕ) (p q : Port) : Table :=
  Function.update T j (Function.update (T j) p q)

/-- The characters of a line from position `j` on, after `src`.  A character after `l` is an
    error. -/
def enter : Option Sym → ℕ → List Sym → Table → Option Table
  | _, _, [], T => some T
  | src, j, .blank :: rest, T => enter src (j + 1) rest T
  | none, _, _ :: _, _ => none
  | some f, j, c :: rest, T => enter (nextFrom c) (j + 1) rest (setEntry T j (port c) (port f))

/-- The table of a schedule whose entries are `dflt` at first. -/
def readLines (dflt : Port) (lines : List (List Sym)) : Option Table :=
  lines.foldlM (fun T line => enter (some .l) 0 line T) fun _ _ => dflt

/-- The length of the longest line. -/
def lineLen (lines : List (List Sym)) : ℕ := (lines.map List.length).foldr max 0

def len (n : ℕ) : ℕ := lineLen ((routes n).map line)

/-- The table of the `n` by `n` network; other sizes are an error. -/
def getSchedule (n : ℕ) : Option Table :=
  if 2 ≤ n ∧ n ≤ 10 then readLines NORTH ((routes n).map line) else none

/-- The loop that marks the start slots, with `k` slots to go from slot `i` on and the lines that
    have not begun.  The last slot is never marked, and a line that is too short is an error. -/
def validFrom : ℕ → ℕ → List (List Sym) → Option (List Bool)
  | 0, _, _ => some [false]
  | k + 1, i, [] => (validFrom k (i + 1) []).map (false :: ·)
  | k + 1, i, l :: ls => do
      let c ← l[i]?
      if c = .blank then (validFrom k (i + 1) (l :: ls)).map (false :: ·)
      else (validFrom k (i + 1) ls).map (true :: ·)

/-- The second result of `getSchedule`: the slots in which a word enters. -/
def validTable (n : ℕ) : Option (List Bool) :=
  if 2 ≤ n ∧ n ≤ 10 then validFrom (len n - 1) 0 ((routes n).map line) else none

/-! ### The torus -/

def opp : Dir → Dir
  | .n => .s
  | .e => .w
  | .s => .n
  | .w => .e

/-- The row and the column of a router; its index is `row * n + column`. -/
abbrev Node (n : ℕ) := ZMod n × ZMod n

def step {n : ℕ} : Dir → Node n
  | .n => (-1, 0)
  | .e => (0, 1)
  | .s => (1, 0)
  | .w => (0, -1)

/-- How the routers are connected: the input of a port is the output of the opposite port at the
    neighbour in this direction, and `n - 1` has `0` as its next one. -/
def links (n : ℕ) : Links Dir (Node n) where
  dir := step
  opp := opp
  opp_opp := by
    intro d
    cases d <;> rfl
  dir_opp := by
    intro d
    cases d <;> simp [opp, step]

/-! ### The table of compatible routes -/

section Table

/-- The hops of a route are set in a table, from slot `j` on. -/
def place (src : Port) (j : ℕ) : List Dir → Table → Table
  | [], T => setEntry T j LOCAL src
  | d :: ds, T => place (some (opp d)) (j + 1) ds (setEntry T j (some d) src)

theorem enter_blanks (src : Option Sym) (j k : ℕ) (rest : List Sym) (T : Table) :
    enter src j (List.replicate k .blank ++ rest) T = enter src (j + k) rest T := by
  induction k generalizing j with
  | zero => rfl
  | succ k ih =>
    have hsum : j + (k + 1) = j + 1 + k := by omega
    rw [List.replicate_succ, List.cons_append, hsum, ← ih]
    cases src <;> rfl

theorem enter_path (f : Sym) (j : ℕ) (ds : List Dir) (T : Table) :
    enter (some f) j (ds.map .dir ++ [.l]) T = some (place (port f) j ds T) := by
  induction ds generalizing f j T with
  | nil => rfl
  | cons d ds ih =>
    have hnext : ∃ g, nextFrom (.dir d) = some g ∧ port g = some (opp d) := by
      cases d <;> exact ⟨_, rfl, rfl⟩
    obtain ⟨g, hg, hport⟩ := hnext
    have hdir : port (.dir d) = some d := by cases d <;> rfl
    rw [List.map_cons, List.cons_append, enter, hg, ih, hport, hdir, place]
    exact Sym.noConfusion

theorem enter_line (r : Route Dir) (T : Table) :
    enter (some .l) 0 (line r) T = some (place LOCAL r.start r.path T) := by
  rw [line, enter_blanks, zero_add, enter_path]
  rfl

theorem setEntry_self (T : Table) (j : ℕ) (p q : Port) : setEntry T j p q j p = q := by
  simp [setEntry]

theorem setEntry_of_ne (T : Table) {j j' : ℕ} {p p' : Port} (q : Port) (h : (j', p') ≠ (j, p)) :
    setEntry T j p q j' p' = T j' p' := by
  unfold setEntry
  by_cases hj : j' = j
  · subst hj
    have hp : p' ≠ p := fun heq => h (by rw [heq])
    rw [Function.update_self, Function.update_of_ne hp]
  · rw [Function.update_of_ne hj]

theorem place_of_not_mem {src : Port} {j j' : ℕ} {p : Port} {ds : List Dir}
    (h : (j', p) ∉ Route.entries ⟨j, ds⟩) (T : Table) : place src j ds T j' p = T j' p := by
  induction ds generalizing src j T with
  | nil => exact setEntry_of_ne T src fun heq => h (Route.mem_entries_nil.mpr heq)
  | cons d ds ih =>
    rw [place, ih fun hmem => h (Route.mem_entries_cons.mpr (Or.inr hmem))]
    exact setEntry_of_ne T src fun heq => h (Route.mem_entries_cons.mpr (Or.inl heq))

/-- The hops of a route with another first source. -/
theorem place_hop {src : Port} {j i : ℕ} {p q : Port} {ds : List Dir} (T : Table)
    (hp : (ds.map some ++ [none])[i]? = some p)
    (hq : (src :: ds.map fun d => some (opp d))[i]? = some q) :
    place src j ds T (j + i) p = q := by
  induction ds generalizing src j i T with
  | nil =>
    cases i with
    | zero =>
      obtain rfl := Option.some.inj hp
      obtain rfl := Option.some.inj hq
      exact setEntry_self T j none _
    | succ i => cases hp
  | cons d ds ih =>
    cases i with
    | zero =>
      cases hp
      cases hq
      have hlater : (j, some d) ∉ Route.entries ⟨j + 1, ds⟩ := fun hmem =>
        absurd (Route.start_le_of_mem hmem) (by simp only; omega)
      rw [add_zero, place, place_of_not_mem hlater, setEntry_self]
    | succ i =>
      have hsum : j + (i + 1) = j + 1 + i := by omega
      rw [hsum, place]
      exact ih _ hp hq

theorem place_sets (n : ℕ) (r : Route Dir) (T : Table) :
    r.Sets (links n) (place LOCAL r.start r.path T) :=
  fun _ _ _ hp hq => place_hop T hp hq

/-- A route stays set while others are set that do not need its ports. -/
theorem sets_of_place {n : ℕ} {r r' : Route Dir} {T : Table} (h : r.Sets (links n) T)
    (hapart : ∀ x ∈ r.entries, x ∉ r'.entries) :
    r.Sets (links n) (place LOCAL r'.start r'.path T) := by
  intro i p q hp hq
  have hmem : (r.start + i, p) ∈ r.entries := Route.mem_entries.mpr ⟨i, hp, rfl⟩
  rw [place_of_not_mem (hapart _ hmem)]
  exact h i p q hp hq

/-- The table after all routes. -/
def placeAll (T : Table) (rs : List (Route Dir)) : Table :=
  rs.foldl (fun T r => place LOCAL r.start r.path T) T

theorem readLines_eq (dflt : Port) (rs : List (Route Dir)) :
    readLines dflt (rs.map line) = some (placeAll (fun _ _ => dflt) rs) := by
  have hfold : ∀ T, (rs.map line).foldlM (fun T line => enter (some .l) 0 line T) T =
      some (placeAll T rs) := by
    induction rs with
    | nil => exact fun T => rfl
    | cons r rs ih =>
      intro T
      rw [List.map_cons, List.foldlM_cons, enter_line]
      exact ih _
  exact hfold _

theorem placeAll_of_not_used {rs : List (Route Dir)} {j : ℕ} {p : Port} (h : ¬ Used rs j p)
    (T : Table) : placeAll T rs j p = T j p := by
  induction rs generalizing T with
  | nil => rfl
  | cons r rs ih =>
    have hfirst : (j, p) ∉ r.entries := fun hmem => h ⟨r, List.mem_cons_self, hmem⟩
    have hrest : ¬ Used rs j p := by
      rintro ⟨r', hr', hmem⟩
      exact h ⟨r', List.mem_cons_of_mem r hr', hmem⟩
    exact (ih hrest _).trans (place_of_not_mem hfirst T)

theorem sets_of_placeAll {n : ℕ} {r : Route Dir} {rs : List (Route Dir)} {T : Table}
    (h : r.Sets (links n) T) (hapart : ∀ r' ∈ rs, ∀ x ∈ r.entries, x ∉ r'.entries) :
    r.Sets (links n) (placeAll T rs) := by
  induction rs generalizing T with
  | nil => exact h
  | cons r' rs ih =>
    exact ih (sets_of_place h (hapart r' List.mem_cons_self))
      fun r'' hr'' => hapart r'' (List.mem_cons_of_mem r' hr'')

theorem placeAll_sets {n : ℕ} {rs : List (Route Dir)} (hcompat : Compatible rs) (T : Table) :
    ∀ r ∈ rs, r.Sets (links n) (placeAll T rs) := by
  induction hcompat generalizing T with
  | nil => exact fun r hr => absurd hr List.not_mem_nil
  | cons hapart _ ih =>
    intro r hr
    rcases List.mem_cons.mp hr with rfl | hrest
    · change r.Sets (links n) (placeAll (place LOCAL r.start r.path T) _)
      exact sets_of_placeAll (place_sets n r T) hapart
    · exact ih _ r hrest

theorem length_line (r : Route Dir) : (line r).length = r.start + (r.path.length + 1) := by
  simp [line]

theorem length_le_lineLen {lines : List (List Sym)} {l : List Sym} (h : l ∈ lines) :
    l.length ≤ lineLen lines := by
  induction lines with
  | nil => cases h
  | cons l' lines ih =>
    rw [lineLen, List.map_cons, List.foldr_cons]
    rcases List.mem_cons.mp h with rfl | hrest
    · exact Nat.le_max_left _ _
    · exact (ih hrest).trans (le_max_right _ _)

/-- The table that is read from compatible routes has their hops, and the default elsewhere. -/
theorem implements_of_compatible (n : ℕ) {rs : List (Route Dir)} (hcompat : Compatible rs)
    (dflt : Dir) :
    Implements (links n) rs dflt (lineLen (rs.map line))
      (placeAll (fun _ _ => some dflt) rs) where
  sets := placeAll_sets hcompat _
  rest := fun _ _ _ hunused => placeAll_of_not_used hunused _
  fits := by
    intro r hr
    have hmem : line r ∈ rs.map line := List.mem_map_of_mem hr
    have hle := length_le_lineLen hmem
    rw [length_line] at hle
    omega

end Table

/-! ### The built-in schedules -/

section BuiltIn

/-- The number of a port. -/
def portNr : Port → ℕ
  | some .n => 0
  | some .e => 1
  | some .s => 2
  | some .w => 3
  | none => 4

theorem compatible_routes {n : ℕ} (hn : n ≤ 10) : Compatible (routes n) := by
  have hcheck : ∀ n < 11, checkFrom (fun x : ℕ × Port => 5 * x.1 + portNr x.2) 0 (routes n) =
      true := by
    decide +kernel
  exact compatible_of_checkFrom _ (hcheck n (Nat.lt_succ_of_le hn))

/-- Every slot begins at most one route, and the routes are in the order of their slots. -/
theorem starts_increase {n : ℕ} (hn : n ≤ 10) :
    ((routes n).map Route.start).Pairwise (· < ·) := by
  have hchain : ∀ n < 11, ((routes n).map Route.start).IsChain (· < ·) := by
    decide +kernel
  exact List.isChain_iff_pairwise.mp (hchain n (Nat.lt_succ_of_le hn))

end BuiltIn

end Patmos.S4Noc
