namespace ChainAnchor.Rules

def targetSpacing : Int64 := 30

/-- So many blocks bury a block for good. -/
def maturity : UInt64 := 100

/-- Seconds after which a checkpoint is mature, however many blocks follow it. -/
def stakeMinAge : Int64 := 28800

/-- Blocks by which a selected checkpoint lags behind the tip. -/
def checkpointSpan : UInt64 := 2 * maturity

/-- Seconds by which a selected checkpoint lags behind the tip. -/
def checkpointMaxSpan : Int64 := 200 * targetSpacing

def checkpointTooOld : Int64 := 864000

/-- A tip that is older by so many seconds shows that blocks are still missing. -/
def maxTipAge : Int64 := 86400

end ChainAnchor.Rules
