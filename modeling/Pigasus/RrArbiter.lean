import Pigasus.Struct

/-!
# Round-robin arbiter

`rr_arbiter_4`: fixed priority among the requests above the last grant, and
among all requests when there is none.
-/

namespace Pigasus

namespace RrArbiter

/-- Bit `i` is set when a request of higher priority than `i` is. -/
def higherPriReqs (req : BitVec 4) : BitVec 4 :=
  BitVec.ofBoolListLE [false, req.getLsbD 0, req.getLsbD 0 || req.getLsbD 1,
    req.getLsbD 0 || req.getLsbD 1 || req.getLsbD 2]

def reqMasked (mask req : BitVec 4) : BitVec 4 := req &&& mask

def grant (mask req : BitVec 4) : BitVec 4 :=
  let m := reqMasked mask req
  if m == 0 then req &&& ~~~ higherPriReqs req else m &&& ~~~ higherPriReqs m

def nextMask (mask req : BitVec 4) : BitVec 4 :=
  let m := reqMasked mask req
  if m != 0 then higherPriReqs m
  else if req != 0 then higherPriReqs req
  else mask

end RrArbiter

end Pigasus
